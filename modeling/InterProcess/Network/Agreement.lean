import InterProcess.Network.Service

/-!
# Outstanding tickets

If no message is lost, no receive times out and no client leaves its loop, then client
and server agree on the tickets that are outstanding: with no message under way, the
tickets in `jobs` are those that the clients list, and no two clients list the same one.
The clock has to be one under which no two enqueues get the same number.
-/

namespace InterProcess

open Transition

namespace Session

variable {codec : Codec} {s s' : Session} {l : Label}

/-- Every ticket in use is the number of a job. -/
def Known (codec : Codec) (s : Session) : Prop :=
  ∀ t, (s.custody codec).InUse t → t ∈ s.network.server.mAlgoRunner.ids

theorem custody_start (codec : Codec) (n : ℕ) : (start n).custody codec = .empty := by
  have hheld : (Pool.start n).held = ∅ := by
    ext t
    simp [Pool.held, Pool.start, CallerPc.inserts]
  have hkept : Shell.kept {} = ∅ := by simp [Shell.kept]
  unfold custody Custody.empty
  congr 1
  funext c
  unfold holder
  congr 1

theorem known_start (codec : Codec) (n : ℕ) : (start n).Known codec := by
  intro t ht
  rw [custody_start] at ht
  exact (Custody.not_inUse_empty t ht).elim

theorem ids_of_granting {server : Server} {choice : Choice}
    (h : Server.step codec s.network.server (.thread choice) = some server) {t : UInt64}
    (ht : t ∈ s.network.server.mAlgoRunner.granting choice) :
    server.mAlgoRunner.ids = s.network.server.mAlgoRunner.ids ++ [t] := by
  obtain ⟨⟨request, hpc, hmode, hpayload⟩, rfl⟩ := ht
  cases (Server.step_cases h).2 with
  | ran client tag _ hbusy pool hpool sreq response hran => simp [hpc] at hran
  | got client tag _ hbusy pool hpool greq response hgot => simp [hpc] at hgot
  | think client tag _ hbusy pool hpool =>
      obtain ⟨-, hp⟩ := Pool.step_cases hpool
      cases hp with
      | caller _ _ hc =>
          cases hc with
          | enqueue => simp [Pool.ids]
          | _ => simp_all

theorem ids_of_fresh (h : step codec s l = some s') {t : UInt64} (ht : t ∈ s.fresh l) :
    s'.network.server.mAlgoRunner.ids = s.network.server.mAlgoRunner.ids ++ [t] := by
  cases l with
  | command => exact ht.elim
  | network l =>
      cases l with
      | init | call | timeout | deliver | serve | worker => exact ht.elim
      | thread choice =>
          obtain ⟨network, hnetwork, rfl⟩ := Option.map_eq_some_iff.mp h
          cases Network.step_cases hnetwork with
          | thread _ server hserver => exact ids_of_granting hserver ht

theorem ids_extends (h : step codec s l = some s') :
    s.network.server.mAlgoRunner.ids <+: s'.network.server.mAlgoRunner.ids := by
  rcases pool_step h with hpool | ⟨j, -, hpool⟩
  · rw [hpool]
  · exact Pool.ids_step hpool

theorem known_step {strict : Prop} (h : s.Known codec) (hstep : step codec s l = some s')
    (hc : Custody.Step strict (s.fresh l) (s.custody codec) (s'.custody codec)) :
    s'.Known codec := by
  intro t ht
  rcases Custody.inUse_step hc ht with hold | hnew
  · exact (ids_extends hstep).subset (h t hold)
  · rw [ids_of_fresh hstep hnew]
    exact List.mem_append_right _ (List.mem_singleton_self t)

theorem Known.fresh (h : s.Known codec) (hstep : step codec s l = some s')
    (hids : s'.network.server.mAlgoRunner.ids.Nodup) : ∀ t ∈ s.fresh l, ¬ (s.custody codec).InUse t := by
  intro t ht huse
  rw [ids_of_fresh hstep ht, List.nodup_append] at hids
  exact hids.2.2 t (h t huse) t (List.mem_singleton_self t) rfl

/-- No message of a client is under way, in either direction or at the server. -/
def Quiet (s : Session) : Prop :=
  s.network.server.thread = .receive ∧
    ∀ client, (s.network.link client).up = [] ∧ (s.network.link client).down = []

/-- Nobody has left the loop, and the ids of the jobs are distinct. -/
structure Intact (s : Session) : Prop where
  inside : ∀ client, (s.shell client).left = false
  ids : s.network.server.mAlgoRunner.ids.Nodup

theorem left_step (h : s.Regular codec) (hstep : step codec s l = some s') {client : Bytes}
    (hin : (s'.shell client).left = false) : (s.shell client).left = false := by
  have hother : ∀ {c : Bytes} {shell : Shell}, s'.shell = Function.update s.shell c shell →
      (s.shell c).left = false → (s.shell client).left = false := by
    intro c shell hshell hc
    by_cases hclient : client = c
    · exact hclient ▸ hc
    · rwa [hshell, Function.update_of_ne hclient] at hin
  cases step_cases hstep with
  | idle c command taken hfree hleft => exact hother rfl hleft
  | sent c command taken hready hleft | failed c command taken hready hleft
  | unsent c command taken hready hleft => exact hother rfl hleft
  | timeout c ongoing hongoing | deliver c ongoing hongoing =>
      exact hother rfl (h.shells.busy c ongoing hongoing).1
  | init | server => exact hin

theorem Intact.back (h : s.Regular codec) (hstep : step codec s l = some s') (hintact : s'.Intact) :
    s.Intact where
  inside client := left_step h hstep (hintact.inside client)
  ids := hintact.ids.sublist (ids_extends hstep).sublist

/-- The invariant of the runs in which nothing is lost. -/
structure Agreeing (codec : Codec) (s : Session) : Prop where
  regular : s.Regular codec
  known : s.Known codec
  sound : (s.custody codec).Sound
  orderly : (s.custody codec).Orderly

theorem agreeing_start (codec : Codec) (n : ℕ) : (start n).Agreeing codec where
  regular := regular_start codec n
  known := known_start codec n
  sound := by
    rw [custody_start]
    exact Custody.sound_empty
  orderly := by
    rw [custody_start]
    exact Custody.orderly_empty

theorem agreeing_step (hcodec : codec.Lawful) (s : Session) (l : Label) (s' : Session)
    (h : s.Agreeing codec) (hok : s.Smooth codec l ∧ ∀ t, step codec s l = some t → t.Intact)
    (hstep : step codec s l = some s') : s'.Agreeing codec := by
  have hintact := hok.2 s' hstep
  have hfresh := h.known.fresh hstep hintact.ids
  have hc : Custody.Step True (s.fresh l) (s.custody codec) (s'.custody codec) :=
    custody_step hcodec h.regular (step_cases hstep)
      (fun _ => ⟨hok.1, hintact.inside, h.sound, h.orderly⟩) fun hnot => absurd trivial hnot
  exact ⟨regular_step hcodec s l s' h.regular hstep, known_step h.known hstep hc,
    Custody.sound_step hc h.sound hfresh, Custody.orderly_step hc trivial h.sound h.orderly⟩

/-- In a run in which nothing is lost, with no message under way, the tickets in `jobs` are
those that the clients list, and no two clients list the same one. -/
theorem tickets_agree (codec : Codec) (hcodec : codec.Lawful) (n : ℕ) (ls : List Label) (s : Session)
    (hrun : run (step codec) (start n) ls = some s)
    (hsmooth : Guarded (step codec) (Smooth codec) (start n) ls)
    (hinside : ∀ client, (s.shell client).left = false)
    (hclock : SteadyClock s.network.server.mAlgoRunner.readings) (hquiet : s.Quiet) :
    s.network.server.mAlgoRunner.jobs.keys = ⋃ client, (s.shell client).pending.keys ∧
      Pairwise fun c d => (s.shell c).pending.keys ∩ (s.shell d).pending.keys = ∅ := by
  have hregular := run_invariant (regular_step hcodec) (regular_start codec n) hrun
  have hintact : s.Intact := ⟨hinside, hregular.clocked.ids_nodup hclock⟩
  have hguard : Guarded (step codec) (fun s l => ∀ t, step codec s l = some t → t.Intact)
      (start n) ls := by
    refine (guarded_of_run (P := Regular codec) (Q := Intact) (regular_step hcodec)
      (fun s l t h hstep => Intact.back h hstep) ?_ (regular_start codec n) hrun hintact).1
    intro s l t _ hstep ht t' hstep'
    exact Option.some.inj (hstep.symm.trans hstep') ▸ ht
  have hagreeing : s.Agreeing codec := run_invariant_of_guarded (agreeing_step hcodec)
    (agreeing_start codec n) (guarded_and hsmooth hguard) hrun
  have hline : ∀ c, ((s.custody codec).client c).line = [] := fun c => by
    obtain ⟨hup, hdown⟩ := hquiet.2 c
    simp [custody, holder, Network.line, hup, hdown, Link.handled_receive hquiet.1]
  have hidle := hregular.traffic.idle hquiet.1
  have hheld : (s.custody codec).held = s.network.server.mAlgoRunner.jobs.keys := by
    ext t
    simp [custody, Pool.held, hidle, CallerPc.inserts, Option.ne_none_iff_exists']
  have hkept : ∀ c, ((s.custody codec).client c).kept = (s.shell c).pending.keys := fun c =>
    Shell.kept_of_in (hinside c)
  obtain ⟨hagree, hdisjoint⟩ := hagreeing.orderly.agree hagreeing.sound hline
  simp only [hheld, hkept] at hagree hdisjoint
  exact ⟨hagree, hdisjoint⟩

instance (codec : Codec) (s : Session) : ∀ l, Decidable (s.Smooth codec l)
  | .command client command taken =>
      decidable_of_iff (command ≠ .quit ∧ ((s.shell client).call command).all (fun call =>
        (sendEnvelope codec call.envelope taken).isSome) = true) (by
          cases hcall : (s.shell client).call command <;>
            simp [Smooth, hcall, Option.isSome_iff_ne_none])
  | .network (.timeout _) => inferInstanceAs (Decidable False)
  | .network (.init _ _) | .network (.call _ _ _) | .network (.deliver _) | .network (.serve _)
  | .network (.thread _) | .network (.worker _) => inferInstanceAs (Decidable True)

def Label.actor : Label → Option Bytes
  | .command client _ _ | .network (.init client _) | .network (.timeout client)
  | .network (.deliver client) => some client
  | .network _ => none

theorem step_of_actor_ne (h : step codec s l = some s') {client : Bytes}
    (hl : l.actor ≠ some client) :
    s'.shell client = s.shell client ∧
      (s'.network.link client).log = (s.network.link client).log := by
  have hother : ∀ {c : Bytes} {link : Link} {shell : Shell}, some c ≠ some client →
      s'.network.link = Function.update s.network.link c link →
      s'.shell = Function.update s.shell c shell → s'.shell client = s.shell client ∧
        (s'.network.link client).log = (s.network.link client).log := by
    intro c link shell hc hlink hshell
    have hne : client ≠ c := fun heq => hc (by rw [heq])
    rw [hlink, hshell, Function.update_of_ne hne, Function.update_of_ne hne]
    exact ⟨rfl, rfl⟩
  cases step_cases h with
  | idle c => exact hother hl (Function.update_eq_self c _).symm rfl
  | sent c | unsent c | timeout c | deliver c => exact hother hl rfl rfl
  | failed c command taken hready hin call hcall hidle hsend network hserver hlink =>
      exact hother hl hlink rfl
  | init c => exact hother hl rfl (Function.update_eq_self c _).symm
  | server l m s₁ ht server hserver => exact ⟨rfl, ht.log client⟩

/-- A client that has not begun lists nothing, and no message of it is under way. -/
theorem untouched_of_run (hcodec : codec.Lawful) {n : ℕ} {ls : List Label}
    (hrun : run (step codec) (start n) ls = some s) {client : Bytes}
    (hls : ∀ l ∈ ls, l.actor ≠ some client) :
    s.shell client = {} ∧ (s.network.link client).up = [] ∧ (s.network.link client).down = [] := by
  have huntouched : s.shell client = {} ∧ (s.network.link client).log = [] := by
    have hguard : Guarded (step codec) (fun _ l => l.actor ≠ some client) (start n) ls :=
      guarded_of_forall fun _ => hls
    refine run_invariant_of_guarded
      (P := fun s => s.shell client = {} ∧ (s.network.link client).log = []) ?_ ⟨rfl, rfl⟩ hguard hrun
    rintro s l s' ⟨hshell, hlog⟩ hl hstep
    rw [← hshell, ← hlog]
    exact step_of_actor_ne hstep hl
  have hregular := run_invariant (regular_step hcodec) (regular_start codec n) hrun
  refine ⟨huntouched.1, ?_, ?_⟩
  · have hupcoming := hregular.traffic.up client
    generalize (s.network.server.mClientExecCaps client).isSome = registered at hupcoming
    cases hupcoming with
    | new hlog hup => exact hup
    | greeting hlog => simp [huntouched.2] at hlog
    | known hlog => exact absurd huntouched.2 hlog
  · refine List.eq_nil_iff_forall_not_mem.mpr fun p hp => ?_
    obtain ⟨call, hcall⟩ := hregular.traffic.down client p hp
    simp [huntouched.2] at hcall

def joined : List Label :=
  [.network (.init (List.replicate 8 65) 1), .network (.serve (List.replicate 8 65))]

/-- The non-blocking addition of a client, from the command to the answer on its way. -/
def submitted : List Label :=
  [.command (List.replicate 8 65) (.math false .mathAdd 2 3) true,
    .network (.serve (List.replicate 8 65))] ++ List.replicate 6 (.network (.thread {}))

/-- After the answer the client lists the ticket that is in `jobs`. -/
theorem tickets_agree_submitted :
    ∃ s, run (step wireCodec) (start 1)
        (joined ++ submitted ++ [.network (.deliver (List.replicate 8 65))]) = some s ∧
      (0 : UInt64) ∈ s.network.server.mAlgoRunner.jobs.keys ∧
      s.network.server.mAlgoRunner.jobs.keys = ⋃ client, (s.shell client).pending.keys := by
  obtain ⟨s, hs, htest⟩ := exists_of_run_any (step wireCodec) (start 1)
    (joined ++ submitted ++ [.network (.deliver (List.replicate 8 65))])
    (fun s => (s.network.server.mAlgoRunner.jobs 0).isSome ∧ s.network.server.thread = .receive ∧
      (s.network.link (List.replicate 8 65)).up = [] ∧
      (s.network.link (List.replicate 8 65)).down = [] ∧
      (s.shell (List.replicate 8 65)).left = false ∧
      s.network.server.mAlgoRunner.readings = [0]) (by decide)
  obtain ⟨hjob, hthread, hup, hdown, hleft, hreadings⟩ := of_decide_eq_true htest
  have hactor : ∀ l ∈ joined ++ submitted ++ [.network (.deliver (List.replicate 8 65))],
      l.actor = none ∨ l.actor = some (List.replicate 8 65) := by decide
  have hother : ∀ client, client ≠ List.replicate 8 65 → s.shell client = {} ∧
      (s.network.link client).up = [] ∧ (s.network.link client).down = [] := by
    intro client hc
    refine untouched_of_run wireCodec_lawful hs fun l hl => ?_
    rcases hactor l hl with hnone | hsome
    · simp [hnone]
    · simpa [hsome] using Ne.symm hc
  have hinside : ∀ client, (s.shell client).left = false := fun client => by
    by_cases hc : client = List.replicate 8 65
    · exact hc ▸ hleft
    · rw [(hother client hc).1]
  have hquiet : s.Quiet := ⟨hthread, fun client => by
    by_cases hc : client = List.replicate 8 65
    · exact hc ▸ ⟨hup, hdown⟩
    · exact (hother client hc).2⟩
  have hclock : SteadyClock s.network.server.mAlgoRunner.readings := by
    rw [hreadings]
    exact ⟨by simp, by simp, fun a => List.count_le_length.trans (by simp)⟩
  refine ⟨s, hs, Table.mem_keys.mpr (Option.isSome_iff_exists.mp hjob), ?_⟩
  exact (tickets_agree wireCodec wireCodec_lawful 1 _ s hs (by decide) hinside hclock hquiet).1

end Session

end InterProcess
