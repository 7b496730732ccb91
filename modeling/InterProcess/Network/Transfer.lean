import InterProcess.Network.Ledger

/-!
# Tickets on their way

Every step of the session is a step of the custody: a client sends, the server grants a
ticket where `enqueue` makes the job, and finishes with one where `get` erases the entry,
and a client that receives a message keeps a ticket, drops one, or loses what it received.
-/

namespace InterProcess

open Transition

namespace Link

variable {codec : Codec} {link link' : Link} {tag : ℕ} {phase : Phase UInt64}

theorem entry_of_call {call : Call} (h : link.log[tag]? = some (some call)) :
    link.entry tag phase = some (call.want, phase) := by
  simp [entry, h]

theorem entry_of_extends (hlog : link.log <+: link'.log) (htag : tag < link.log.length) :
    link'.entry tag phase = link.entry tag phase := by
  obtain ⟨more, hmore⟩ := hlog
  rw [entry, entry, ← hmore, List.getElem?_append_left htag]

theorem entry_congr (hlog : link'.log = link.log) : link'.entry tag phase = link.entry tag phase := by
  rw [entry, entry, hlog]

theorem Upcoming.tag_lt {client : Bytes} {registered : Bool}
    (h : link.Upcoming codec client registered) {p : Packet} (hp : p ∈ link.up) :
    p.tag < link.log.length := by
  have hrequested : ∀ {p : Packet}, link.Requested codec p → p.tag < link.log.length := by
    rintro p ⟨call, hcall, -⟩
    exact (List.getElem?_eq_some_iff.mp hcall).1
  cases h with
  | new hlog hup => simp [hup] at hp
  | greeting hlog execFunFlags payload rest hid hverify hserialize hup hrest =>
      rw [hup] at hp
      rcases List.mem_cons.mp hp with rfl | hp
      · exact (List.getElem?_eq_some_iff.mp hlog).1
      · exact hrequested (hrest p hp)
  | known hlog hup => exact hrequested (hup p hp)

theorem Upcoming.greeting_entry {client : Bytes} (h : link.Upcoming codec client false)
    {p : Packet} {rest : List Packet} (hup : link.up = p :: rest) : link.entry p.tag phase = none := by
  cases h with
  | new hlog hnone => simp [hnone] at hup
  | greeting hlog execFunFlags payload rest' hid hverify hserialize hfirst =>
      obtain ⟨rfl, -⟩ := List.cons.inj (hfirst.symm.trans hup)
      simp [entry, hlog]

end Link

/-- The ticket that the next step of the server's thread computes, if it computes one. -/
def Pool.granting (p : Pool) (choice : Choice) : Set UInt64 :=
  {t | p.Enqueuing 0 ∧ t = ticketId choice.reading p.seq}

namespace Session

/-- What holds in every state of a session. -/
structure Regular (codec : Codec) (s : Session) : Prop where
  shells : s.Shells
  traffic : s.network.Traffic codec
  serial : s.network.server.mAlgoRunner.Serial
  computed : s.network.server.mAlgoRunner.Computed
  ticketed : s.network.server.mAlgoRunner.Ticketed
  clocked : s.network.server.mAlgoRunner.Clocked

variable {codec : Codec} {s s' : Session}

theorem regular_start (codec : Codec) (n : ℕ) : (start n).Regular codec :=
  ⟨shells_start n, Network.traffic_start codec n, Pool.serial_start n, Pool.computed_start n,
    Pool.ticketed_start n, Pool.clocked_start n⟩

theorem pool_step {l : Label} (h : step codec s l = some s') :
    s'.network.server.mAlgoRunner = s.network.server.mAlgoRunner ∨
      ∃ m : InterProcess.Label, m.Single ∧
        s.network.server.mAlgoRunner.step m = some s'.network.server.mAlgoRunner := by
  rcases network_step h with hsame | ⟨m, hm⟩
  · exact Or.inl (by rw [hsame])
  · rcases Network.server_step (Network.step_cases hm) with hserver | ⟨k, hk⟩
    · exact Or.inl (by rw [hserver])
    · exact Server.runner_step hk

theorem regular_step (hcodec : codec.Lawful) (s : Session) (l : Label) (s' : Session)
    (h : s.Regular codec) (hstep : step codec s l = some s') : s'.Regular codec := by
  have hshells := shells_step h.shells (step_cases hstep)
  rcases network_step hstep with hsame | ⟨m, hm⟩
  · exact ⟨hshells, hsame ▸ h.traffic, hsame ▸ h.serial, hsame ▸ h.computed, hsame ▸ h.ticketed,
      hsame ▸ h.clocked⟩
  · have htraffic := Network.traffic_step hcodec h.traffic (Network.step_cases hm)
    rcases pool_step hstep with hpool | ⟨j, hj, hpool⟩
    · refine ⟨hshells, htraffic, ?_, ?_, ?_, ?_⟩
      · exact hpool ▸ h.serial
      · exact hpool ▸ h.computed
      · exact hpool ▸ h.ticketed
      · exact hpool ▸ h.clocked
    · exact ⟨hshells, htraffic, Pool.serial_step h.serial h.ticketed h.computed hj hpool,
        Pool.computed_step _ _ _ h.computed hpool, Pool.ticketed_step _ _ _ h.ticketed hpool,
        Pool.clocked_step _ _ _ h.clocked hpool⟩

/-! ### The steps of a client -/

theorem line_client (h : s.network.Traffic codec) {client : Bytes} {link : Link}
    (hserver : s'.network.server = s.network.server)
    (hlink : s'.network.link client = link) (hlog : (s.network.link client).log <+: link.log) :
    s'.network.line codec client = link.down.filterMap (link.reply codec) ++
      ((s.network.link client).handled s.network.server client ++
        link.up.filterMap link.request) := by
  unfold Network.line
  rw [hlink, hserver]
  congr 2
  unfold Link.handled
  split
  · rfl
  · next other tag hbusy =>
      split
      · next hother =>
          obtain ⟨call, hcall, -⟩ := h.busy other tag hbusy
          rw [hother] at hcall
          rw [Link.entry_of_extends hlog (List.getElem?_eq_some_iff.mp hcall).1]
      · rfl

theorem replies_of_extends (h : s.network.Traffic codec) {client : Bytes} {link : Link}
    (hlog : (s.network.link client).log <+: link.log) {down : List Packet}
    (hdown : down ⊆ (s.network.link client).down) :
    down.filterMap (link.reply codec) =
      down.filterMap ((s.network.link client).reply codec) := by
  refine List.filterMap_congr fun p hp => ?_
  obtain ⟨call, hcall⟩ := h.down client p (hdown hp)
  exact Link.entry_of_extends hlog (List.getElem?_eq_some_iff.mp hcall).1

theorem requests_of_extends (h : s.network.Traffic codec) {client : Bytes} {link : Link}
    (hlog : (s.network.link client).log <+: link.log) :
    (s.network.link client).up.filterMap link.request =
      (s.network.link client).up.filterMap (s.network.link client).request := by
  refine List.filterMap_congr fun p hp => ?_
  exact Link.entry_of_extends hlog ((h.up client).tag_lt hp)

theorem line_of_extends (h : s.network.Traffic codec) {client : Bytes} (link : Link)
    (hlog : (s.network.link client).log <+: link.log)
    (hdown : link.down = (s.network.link client).down)
    (more : List Packet) (hup : link.up = (s.network.link client).up ++ more) :
    link.down.filterMap (link.reply codec) ++
      ((s.network.link client).handled s.network.server client ++ link.up.filterMap link.request) =
      s.network.line codec client ++ more.filterMap link.request := by
  rw [hdown, hup, List.filterMap_append, replies_of_extends h hlog (List.Subset.refl _),
    requests_of_extends h hlog]
  simp only [Network.line, List.append_assoc]

def fresh (s : Session) : Label → Set UInt64
  | .network (.thread choice) => s.network.server.mAlgoRunner.granting choice
  | _ => ∅

def arriving (codec : Codec) (s : Session) (client : Bytes) : Option UInt64 :=
  match (s.network.link client).down.head?.bind ((s.network.link client).reply codec) with
  | some (.goods t, .final) => some t
  | _ => none

/-- Who receives the final reply of a ticket that it lists has asked for it, or leaves the
loop. -/
def Fetches (codec : Codec) (s : Session) : Label → Prop
  | .network (.deliver client) =>
      ∀ t ∈ s.arriving codec client, (s.shell client).pending t ≠ none →
        ((s.network.link client).ongoing.map fun ongoing => ongoing.call.want) =
            some (.goods t) ∨
          (s.shell client).command.any Shell.Leaves
  | _ => True

/-- Nothing is lost: a call sends its message, no receive times out, and no client leaves
its loop. -/
def Smooth (codec : Codec) (s : Session) : Label → Prop
  | .command client command taken =>
      command ≠ .quit ∧ ∀ call, (s.shell client).call command = some call →
        sendEnvelope codec call.envelope taken ≠ none
  | .network (.timeout _) => False
  | .network _ => True

section Step

variable {strict : Prop} {l : Label}

theorem custody_move (client : Bytes)
    (hother : ∀ c, c ≠ client → s'.holder codec c = s.holder codec c)
    (hm : (s.holder codec client).Move strict (s.fresh l) s.network.server.mAlgoRunner.held
      s'.network.server.mAlgoRunner.held (s'.holder codec client)) :
    Custody.Step strict (s.fresh l) (s.custody codec) (s'.custody codec) := by
  have hput : s'.custody codec = (s.custody codec).put client
      s'.network.server.mAlgoRunner.held (s'.holder codec client) := by
    unfold custody Custody.put
    congr 1
    funext c
    by_cases hc : c = client
    · subst hc
      simp
    · simp [hc, hother c hc]
  rw [hput]
  exact .move client _ _ hm

theorem holder_client (h : s.network.Traffic codec) {client : Bytes} {link : Link} {shell : Shell}
    (hserver : s'.network.server = s.network.server)
    (hlink : s'.network.link = Function.update s.network.link client link)
    (hshell : s'.shell = Function.update s.shell client shell)
    (hlog : (s.network.link client).log <+: link.log) :
    s'.holder codec client =
      { kept := shell.kept
        line := link.down.filterMap (link.reply codec) ++
          ((s.network.link client).handled s.network.server client ++
            link.up.filterMap link.request)
        waiting := link.ongoing.map fun ongoing => ongoing.call.want } := by
  have hself : s'.network.link client = link := by simp [hlink]
  simp only [holder, line_client h hserver hself hlog, hself, hshell, Function.update_self]

theorem holder_other {client : Bytes} {link : Link} {shell : Shell}
    (hserver : s'.network.server = s.network.server)
    (hlink : s'.network.link = Function.update s.network.link client link)
    (hshell : s'.shell = Function.update s.shell client shell) {c : Bytes} (hc : c ≠ client) :
    s'.holder codec c = s.holder codec c := by
  simp only [holder, Network.line, hserver, hlink, hshell, Function.update_of_ne hc]

theorem custody_client (h : s.network.Traffic codec) {client : Bytes} {link : Link} {shell : Shell}
    (hserver : s'.network.server = s.network.server)
    (hlink : s'.network.link = Function.update s.network.link client link)
    (hshell : s'.shell = Function.update s.shell client shell)
    (hlog : (s.network.link client).log <+: link.log)
    (hm : (s.holder codec client).Move strict (s.fresh l) s.network.server.mAlgoRunner.held
      s.network.server.mAlgoRunner.held
      { kept := shell.kept
        line := link.down.filterMap (link.reply codec) ++
          ((s.network.link client).handled s.network.server client ++
            link.up.filterMap link.request)
        waiting := link.ongoing.map fun ongoing => ongoing.call.want }) :
    Custody.Step strict (s.fresh l) (s.custody codec) (s'.custody codec) := by
  refine custody_move client (fun c hc => holder_other hserver hlink hshell hc) ?_
  rw [holder_client h hserver hlink hshell hlog, hserver]
  exact hm

theorem custody_lose (h : s.network.Traffic codec) {client : Bytes} {link : Link} {shell : Shell}
    (hserver : s'.network.server = s.network.server)
    (hlink : s'.network.link = Function.update s.network.link client link)
    (hshell : s'.shell = Function.update s.shell client shell)
    (hlog : (s.network.link client).log <+: link.log)
    (hdown : link.down = (s.network.link client).down)
    (hup : link.up = (s.network.link client).up) (hloose : ¬ strict)
    (hkept : shell.kept ⊆ (s.shell client).kept) :
    Custody.Step strict (s.fresh l) (s.custody codec) (s'.custody codec) := by
  refine custody_client h hserver hlink hshell hlog ?_
  rw [line_of_extends h link hlog hdown [] (by rw [hup, List.append_nil]), List.filterMap_nil,
    List.append_nil]
  exact .lose _ hloose hkept (List.Sublist.refl _) fun t _ hmem => hmem

theorem custody_send (h : s.network.Traffic codec) {client : Bytes} {link : Link} {shell : Shell}
    {call : Call} {p : Packet} (hserver : s'.network.server = s.network.server)
    (hlink : s'.network.link = Function.update s.network.link client link)
    (hshell : s'.shell = Function.update s.shell client shell)
    (hlog : (s.network.link client).log <+: link.log)
    (hdown : link.down = (s.network.link client).down)
    (hup : link.up = (s.network.link client).up ++ [p])
    (hcall : link.log[p.tag]? = some (some call))
    (hidle : (s.network.link client).ongoing = none)
    (hongoing : (link.ongoing.map fun ongoing => ongoing.call.want) = some call.want)
    (hkept : shell.kept = (s.shell client).kept)
    (hgoods : ∀ t, call.want = .goods t → t ∈ (s.shell client).kept) :
    Custody.Step strict (s.fresh l) (s.custody codec) (s'.custody codec) := by
  refine custody_client h hserver hlink hshell hlog ?_
  rw [line_of_extends h link hlog hdown [p] hup, hongoing, hkept, List.filterMap_cons, Link.request,
    Link.entry_of_call hcall]
  exact .send call.want (by simp [holder, hidle]) hgoods

theorem kept_of_failed {shell : Shell} {command : Command} {call : Call}
    (h : command.Makes call) (hin : shell.left = false) :
    (shell.settle command call.failed).kept ⊆ shell.kept := by
  rcases Shell.lists_failed h hin with ⟨-, hkept⟩ | ⟨hleft, -⟩
  · exact hkept.subset
  · rw [Shell.kept_of_left hleft]
    exact Set.empty_subset _

theorem kept_of_call {shell : Shell} {command : Command} {call : Call} (hown : shell.Own)
    (hin : shell.left = false) (hcall : shell.call command = some call) {t : UInt64}
    (ht : call.want = .goods t) : t ∈ shell.kept := by
  rw [Shell.kept_of_in hin]
  cases command with
  | quit => cases hcall
  | get ticketId wait =>
      obtain ⟨ticket, hticket, rfl⟩ := Option.map_eq_some_iff.mp hcall
      have hid : ticketId = t := by
        rw [← hown ticketId ticket hticket]
        cases wait <;> exact Want.goods.inj ht
      exact Table.mem_keys.mpr ⟨ticket, hid ▸ hticket⟩
  | math isBlocking | str isBlocking =>
      obtain rfl := Option.some.inj hcall
      cases isBlocking <;> cases ht

theorem custody_command (h : s.Regular codec) {client : Bytes} {command : Command} {taken : Bool}
    (hs : Step codec s (.command client command taken) s')
    (hsmooth : strict → s.Smooth codec (.command client command taken)) :
    Custody.Step strict (s.fresh (.command client command taken)) (s.custody codec)
      (s'.custody codec) := by
  have hextends : ∀ call : Call, (s.network.link client).log <+:
      (s.network.link client).log ++ [some call] := fun call => List.prefix_append _ _
  cases hs with
  | idle _ _ _ hfree hin =>
      by_cases hquit : command = .quit
      · refine custody_lose h.traffic rfl (Function.update_eq_self client _).symm rfl
          List.prefix_rfl rfl rfl (fun hstrict => (hsmooth hstrict).1 hquit) ?_
        simp [Shell.kept, hquit]
      · have hsame : { s.shell client with left := decide (command = .quit) } = s.shell client := by
          rw [decide_eq_false hquit, ← hin]
        have hstay : s.setShell client (s.shell client) = s := by
          simp only [setShell, Function.update_eq_self]
        rw [hsame, hstay]
        exact .stay
  | sent _ _ _ hready hin call hcall hidle payload hsend clean =>
      exact custody_send h.traffic rfl rfl rfl (hextends call) rfl rfl (by simp) hidle rfl rfl
        fun t ht => kept_of_call (h.shells.own client) hin hcall ht
  | unsent _ _ _ hready hin call hcall hidle hsend clean =>
      exact custody_lose h.traffic rfl rfl rfl (hextends call) rfl rfl
        (fun hstrict => (hsmooth hstrict).2 call hcall hsend) subset_rfl
  | failed _ _ _ hready hin call hcall hidle hsend network hserver hlink =>
      exact custody_lose h.traffic hserver hlink rfl (hextends call) rfl rfl
        (fun hstrict => (hsmooth hstrict).2 call hcall hsend)
        (kept_of_failed (Shell.makes_of_call (h.shells.own client) hcall) hin)

theorem custody_stay (hheld : s'.network.server.mAlgoRunner.held =
      s.network.server.mAlgoRunner.held)
    (hsame : ∀ c, s'.holder codec c = s.holder codec c) :
    Custody.Step strict (s.fresh l) (s.custody codec) (s'.custody codec) := by
  have heq : s'.custody codec = s.custody codec := by
    unfold custody
    rw [hheld, funext hsame]
  rw [heq]
  exact .stay

theorem custody_init (h : s.network.Traffic codec) {client : Bytes} {p : Packet} {link : Link}
    (hnew : s.network.link client = {}) (hserver : s'.network.server = s.network.server)
    (hlink : s'.network.link = Function.update s.network.link client link)
    (hshell : s'.shell = s.shell) (hlog : link.log = [none]) (hup : link.up = [p])
    (hdown : link.down = []) (hongoing : link.ongoing = none) (htag : p.tag = 0) :
    Custody.Step strict (s.fresh l) (s.custody codec) (s'.custody codec) := by
  have hextends : (s.network.link client).log <+: link.log := by
    rw [hnew]
    exact List.nil_prefix
  have hshell' : s'.shell = Function.update s.shell client (s.shell client) := by
    rw [hshell, Function.update_eq_self]
  have hrequest : link.request p = none := by simp [Link.request, Link.entry, hlog, htag]
  refine custody_stay (by rw [hserver]) fun c => ?_
  by_cases hc : c = client
  · subst hc
    rw [holder_client h hserver hlink hshell' hextends,
      line_of_extends h link hextends (by rw [hdown, hnew]) [p] (by rw [hup, hnew]; rfl)]
    simp [holder, hrequest, hongoing, hnew]
  · exact holder_other hserver hlink hshell' hc

theorem custody_deliver (h : s.Regular codec) {client : Bytes}
    {ongoing : Ongoing} (hongoing : (s.network.link client).ongoing = some ongoing)
    {frame : Packet} {rest : List Packet} (hdown : (s.network.link client).down = frame :: rest)
    {link : Link} {shell : Shell} (hserver : s'.network.server = s.network.server)
    (hlink : s'.network.link = Function.update s.network.link client link)
    (hshell : s'.shell = Function.update s.shell client shell)
    (hlog : link.log = (s.network.link client).log) (hrest : link.down = rest)
    (hup : link.up = (s.network.link client).up) (hdone : link.ongoing = none)
    {command : Command} (hcommand : (s.shell client).command = some command)
    (hmakes : command.Makes ongoing.call)
    (hsettle : shell = (s.shell client).settle command
      (ongoing.call.finish codec (some frame.payload)))
    (hstrict : strict → shell.left = false ∧ (s.custody codec).Sound ∧ (s.custody codec).Orderly)
    (hfetches : ¬ strict → s.Fetches codec (.network (.deliver client))) :
    Custody.Step strict (s.fresh l) (s.custody codec) (s'.custody codec) := by
  obtain ⟨call, hcall⟩ := h.traffic.down client frame (hdown ▸ List.mem_cons_self)
  have hin := (h.shells.busy client ongoing hongoing).1
  have hreply : link.reply codec = (s.network.link client).reply codec := by
    funext p
    exact Link.entry_congr hlog
  have hrequest : link.request = (s.network.link client).request := by
    funext p
    exact Link.entry_congr hlog
  have hhead : (s.network.link client).reply codec frame =
      some (call.want, replyPhase codec frame.payload) := Link.entry_of_call hcall
  have hline : (s.holder codec client).line = (call.want, replyPhase codec frame.payload) ::
      (link.down.filterMap (link.reply codec) ++
        ((s.network.link client).handled s.network.server client ++
          link.up.filterMap link.request)) := by
    simp only [holder, Network.line, hdown, hreply, hrequest, hrest, hup, List.filterMap_cons, hhead,
      List.cons_append]
  refine custody_client h.traffic hserver hlink hshell (hlog ▸ List.prefix_rfl) ?_
  rw [hdone, Option.map_none]
  have hlists := Shell.lists_settle codec hmakes hin frame.payload
  rw [← hsettle] at hlists
  rcases hlists with ⟨hstay, hkept⟩ | ⟨hleft, -⟩
  · rw [hkept]
    refine Holder.Move.take (by simp [holder, hongoing]) hline (replyPhase_ne_asked codec _)
      (fun hs => ⟨(hstrict hs).2.1.client client, (hstrict hs).2.2.client client⟩) ?_
    intro hnot t hwant hfinal ht
    have harriving : s.arriving codec client = some t := by
      simp [arriving, hdown, hhead, hwant, hfinal]
    have hpending : (s.shell client).pending t ≠ none := by
      rw [holder, Shell.kept_of_in hin, Table.mem_keys] at ht
      exact Option.ne_none_iff_exists'.mpr ht
    rcases hfetches hnot t harriving hpending with heq | hleaves
    · simpa [hongoing] using heq
    · have hleft : shell.left = true := by
        rw [hsettle]
        exact Shell.left_of_final hmakes (by simpa [hcommand] using hleaves) hfinal
      rw [hstay] at hleft
      cases hleft
  · rw [Shell.kept_of_left hleft]
    refine .lose _ (fun hs => ?_) (Set.empty_subset _) ?_ fun t ht => ht.elim
    · rw [(hstrict hs).1] at hleft
      cases hleft
    · rw [hline]
      exact List.sublist_cons_self _ _

end Step

end Session

end InterProcess
