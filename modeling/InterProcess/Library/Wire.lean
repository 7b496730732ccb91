import Mathlib.Data.List.Basic
import Mathlib.Tactic.Ring

/-!
# The protobuf wire format

A message is a sequence of fields, each with a number and a content of one of
four kinds. `fields` reads such a sequence: it fails on malformed or truncated
input, and skips groups. `encode` writes one.

A reader of a message folds a step over the fields, so that a later field
overrides or extends an earlier one. `uint`, `text` and `nested` are the fields
that a writer makes of a number, of a string and of a message inside a message,
and `Reads` puts the readings of single fields together.
-/

namespace Wire

/-! ### Varints -/

/-- The base-128 digits of a number below `128 ^ k`, the least one first. -/
def encodeVarint : ℕ → ℕ → List UInt8
  | 0, _ => []
  | k + 1, n =>
      if n < 128 then [UInt8.ofNat n]
      else UInt8.ofNat (n % 128 + 128) :: encodeVarint k (n / 128)

/-- A varint of at most `k` bytes, and what follows it. -/
def decodeVarint : ℕ → List UInt8 → Option (ℕ × List UInt8)
  | 0, _ => none
  | _ + 1, [] => none
  | k + 1, b :: bs =>
      if b.toNat < 128 then some (b.toNat, bs)
      else (decodeVarint k bs).map fun r => (b.toNat % 128 + 128 * r.1, r.2)

theorem decodeVarint_encodeVarint {k n : ℕ} (hk : 0 < k) (h : n < 128 ^ k) (rest : List UInt8) :
    decodeVarint k (encodeVarint k n ++ rest) = some (n, rest) := by
  induction k generalizing n with
  | zero => cases hk
  | succ k ih =>
      unfold encodeVarint
      split
      · next hlt =>
          have hbyte : (UInt8.ofNat n).toNat = n := by
            rw [UInt8.toNat_ofNat']
            omega
          simp [decodeVarint, hbyte, hlt]
      · next hge =>
          have hbyte : (UInt8.ofNat (n % 128 + 128)).toNat = n % 128 + 128 := by
            rw [UInt8.toNat_ofNat']
            omega
          have hquot : n / 128 < 128 ^ k := by
            rw [Nat.div_lt_iff_lt_mul (by decide), ← pow_succ]
            exact h
          have hk' : 0 < k := by
            rcases k with _ | k
            · rw [pow_zero] at hquot
              omega
            · exact Nat.succ_pos k
          rw [List.cons_append, decodeVarint, hbyte, if_neg (by omega), ih hk' hquot,
            Option.map_some, Nat.add_mod_right, Nat.mod_mod, Nat.mod_add_div]

theorem encodeVarint_ne_nil {k : ℕ} (hk : 0 < k) (n : ℕ) : encodeVarint k n ≠ [] := by
  obtain ⟨k, rfl⟩ := Nat.exists_eq_succ_of_ne_zero hk.ne'
  unfold encodeVarint
  split <;> simp

theorem decodeVarint_suffix {k n : ℕ} {bs rest : List UInt8}
    (h : decodeVarint k bs = some (n, rest)) : rest <:+ bs := by
  induction k generalizing n bs with
  | zero => cases h
  | succ k ih =>
      cases bs with
      | nil => cases h
      | cons b bs =>
          unfold decodeVarint at h
          split at h
          · cases h
            exact List.suffix_cons b _
          · obtain ⟨⟨m, rest'⟩, hr, heq⟩ := Option.map_eq_some_iff.mp h
            cases heq
            exact (ih hr).trans (List.suffix_cons b bs)

theorem length_encodeVarint_le (k n : ℕ) : (encodeVarint k n).length ≤ k := by
  induction k generalizing n with
  | zero => simp [encodeVarint]
  | succ k ih =>
      unfold encodeVarint
      split
      · simp
      · simpa using ih (n / 128)

/-! ### Fields -/

/-- What a field holds. -/
inductive Content where
  | varint (value : ℕ)
  | fixed64 (value : List UInt8)
  | bytes (value : List UInt8)
  | fixed32 (value : List UInt8)
  deriving DecidableEq, Repr

structure Field where
  number : ℕ
  content : Content
  deriving DecidableEq, Repr

inductive Token where
  | field (f : Field)
  | startGroup (number : ℕ)
  | endGroup (number : ℕ)
  deriving DecidableEq, Repr

/-- The first `n` bytes, and what follows them. -/
def takeBytes (n : ℕ) (bs : List UInt8) : Option (List UInt8 × List UInt8) :=
  if n ≤ bs.length then some (bs.take n, bs.drop n) else none

/-- The content of a field of the given wire type, after its tag. -/
def readContent (number : ℕ) (bs : List UInt8) : ℕ → Option (Token × List UInt8)
  | 0 => (decodeVarint 10 bs).map fun r => (.field ⟨number, .varint (r.1 % 2 ^ 64)⟩, r.2)
  | 1 => (takeBytes 8 bs).map fun r => (.field ⟨number, .fixed64 r.1⟩, r.2)
  | 2 =>
      (decodeVarint 5 bs).bind fun l =>
        (takeBytes l.1 l.2).map fun r => (.field ⟨number, .bytes r.1⟩, r.2)
  | 3 => some (.startGroup number, bs)
  | 4 => some (.endGroup number, bs)
  | 5 => (takeBytes 4 bs).map fun r => (.field ⟨number, .fixed32 r.1⟩, r.2)
  | _ => none

/-- A tag is the field number and the wire type in 32 bits. The number `0` is not
a field. -/
def readToken (bs : List UInt8) : Option (Token × List UInt8) :=
  (decodeVarint 5 bs).bind fun r =>
    let tag := r.1 % 2 ^ 32
    if tag / 8 = 0 then none else readContent (tag / 8) r.2 (tag % 8)

/-- At most `k` tokens. -/
def tokens : ℕ → List UInt8 → Option (List Token)
  | _, [] => some []
  | 0, _ :: _ => none
  | k + 1, b :: bs =>
      (readToken (b :: bs)).bind fun r => (tokens k r.2).map (r.1 :: ·)

/-- The fields outside of groups. `opened` are the groups that are not closed yet,
at most `limit` of them at any time. -/
def ungroup (limit : ℕ) : List ℕ → List Token → Option (List Field)
  | [], [] => some []
  | _ :: _, [] => none
  | opened, .startGroup n :: ts =>
      if opened.length < limit then ungroup limit (n :: opened) ts else none
  | [], .endGroup _ :: _ => none
  | m :: opened, .endGroup n :: ts => if m = n then ungroup limit opened ts else none
  | [], .field f :: ts => (ungroup limit [] ts).map (f :: ·)
  | m :: opened, .field _ :: ts => ungroup limit (m :: opened) ts

/-- The fields of a message. A token has at least one byte. -/
def fields (limit : ℕ) (bs : List UInt8) : Option (List Field) :=
  (tokens bs.length bs).bind (ungroup limit [])

def Content.wireType : Content → ℕ
  | .varint _ => 0
  | .fixed64 _ => 1
  | .bytes _ => 2
  | .fixed32 _ => 5

def Content.encode : Content → List UInt8
  | .varint value => encodeVarint 10 value
  | .fixed64 value => value
  | .bytes value => encodeVarint 5 value.length ++ value
  | .fixed32 value => value

def Field.encode (f : Field) : List UInt8 :=
  encodeVarint 5 (8 * f.number + f.content.wireType) ++ f.content.encode

def encode (fs : List Field) : List UInt8 := fs.flatMap Field.encode

/-- The contents that the format can carry. -/
def Content.Fits : Content → Prop
  | .varint value => value < 2 ^ 64
  | .fixed64 value => value.length = 8
  | .bytes value => value.length < 2 ^ 31
  | .fixed32 value => value.length = 4

structure Field.Fits (f : Field) : Prop where
  pos : 0 < f.number
  lt : f.number < 2 ^ 29
  content : f.content.Fits

theorem takeBytes_append (value rest : List UInt8) :
    takeBytes value.length (value ++ rest) = some (value, rest) := by
  simp [takeBytes]

theorem takeBytes_append_of_length {n : ℕ} {value : List UInt8} (h : value.length = n)
    (rest : List UInt8) : takeBytes n (value ++ rest) = some (value, rest) :=
  h ▸ takeBytes_append value rest

theorem readContent_encode {c : Content} (h : c.Fits) (number : ℕ) (rest : List UInt8) :
    readContent number (c.encode ++ rest) c.wireType = some (.field ⟨number, c⟩, rest) := by
  cases c with
  | varint value =>
      have hlt : value < 128 ^ 10 := Nat.lt_trans h (by decide)
      simp only [readContent, Content.encode, Content.wireType,
        decodeVarint_encodeVarint (by decide) hlt, Option.map_some, Nat.mod_eq_of_lt h]
  | fixed64 value =>
      simp [readContent, Content.encode, Content.wireType, takeBytes_append_of_length h]
  | bytes value =>
      have hlt : value.length < 128 ^ 5 := Nat.lt_trans h (by decide)
      simp [readContent, Content.encode, Content.wireType,
        decodeVarint_encodeVarint (by decide) hlt, takeBytes_append]
  | fixed32 value =>
      simp [readContent, Content.encode, Content.wireType, takeBytes_append_of_length h]

theorem wireType_lt (c : Content) : c.wireType < 8 := by
  cases c <;> simp [Content.wireType]

theorem readToken_encode {f : Field} (h : f.Fits) (rest : List UInt8) :
    readToken (f.encode ++ rest) = some (.field f, rest) := by
  have htype := wireType_lt f.content
  have hpos := h.pos
  have hlt : 8 * f.number + f.content.wireType < 2 ^ 32 := by
    have := h.lt
    omega
  have htag : decodeVarint 5 (f.encode ++ rest) =
      some (8 * f.number + f.content.wireType, f.content.encode ++ rest) := by
    rw [Field.encode, List.append_assoc]
    exact decodeVarint_encodeVarint (by decide) (Nat.lt_trans hlt (by decide)) _
  have hnumber : (8 * f.number + f.content.wireType) / 8 = f.number := by omega
  have hmod : (8 * f.number + f.content.wireType) % 8 = f.content.wireType := by omega
  simp only [readToken, htag, Option.bind_some, Nat.mod_eq_of_lt hlt, hnumber, hmod,
    if_neg hpos.ne']
  exact readContent_encode h.content f.number rest

theorem Field.encode_ne_nil (f : Field) : f.encode ≠ [] := by
  simp [Field.encode, encodeVarint_ne_nil]

theorem length_le_length_encode (fs : List Field) : fs.length ≤ (encode fs).length := by
  induction fs with
  | nil => exact Nat.le_refl 0
  | cons f fs ih =>
      have hpos := List.length_pos_iff.mpr f.encode_ne_nil
      simp only [encode, List.flatMap_cons, List.length_append, List.length_cons] at ih ⊢
      omega

theorem tokens_encode {fs : List Field} (h : ∀ f ∈ fs, f.Fits) {k : ℕ}
    (hk : fs.length ≤ k) : tokens k (encode fs) = some (fs.map Token.field) := by
  induction fs generalizing k with
  | nil => cases k <;> rfl
  | cons f fs ih =>
      obtain ⟨k, rfl⟩ : ∃ j, k = j + 1 := ⟨k - 1, by simp at hk; omega⟩
      have hhead := readToken_encode (h f List.mem_cons_self) (encode fs)
      have htail := ih (fun g hg => h g (List.mem_cons_of_mem f hg))
        (Nat.le_of_succ_le_succ hk)
      rw [encode, List.flatMap_cons, ← encode]
      obtain ⟨b, bs, hbytes⟩ := List.exists_cons_of_ne_nil f.encode_ne_nil
      rw [hbytes, List.cons_append] at hhead ⊢
      simp [tokens, hhead, htail]

theorem ungroup_field (limit : ℕ) (fs : List Field) :
    ungroup limit [] (fs.map Token.field) = some fs := by
  induction fs with
  | nil => rfl
  | cons f fs ih => simp [ungroup, ih]

/-- What was encoded is read back. -/
theorem fields_encode (limit : ℕ) {fs : List Field} (h : ∀ f ∈ fs, f.Fits) :
    fields limit (encode fs) = some fs := by
  rw [fields, tokens_encode h (length_le_length_encode fs), Option.bind_some, ungroup_field]

theorem takeBytes_suffix {n : ℕ} {bs value rest : List UInt8}
    (h : takeBytes n bs = some (value, rest)) : rest <:+ bs := by
  unfold takeBytes at h
  split at h
  · cases h
    exact List.drop_suffix n bs
  · cases h

theorem readContent_suffix {number kind : ℕ} {bs rest : List UInt8} {t : Token}
    (h : readContent number bs kind = some (t, rest)) : rest <:+ bs := by
  unfold readContent at h
  split at h
  · obtain ⟨⟨n, rest'⟩, hr, heq⟩ := Option.map_eq_some_iff.mp h
    cases heq
    exact decodeVarint_suffix hr
  · obtain ⟨⟨value, rest'⟩, hr, heq⟩ := Option.map_eq_some_iff.mp h
    cases heq
    exact takeBytes_suffix hr
  · obtain ⟨⟨n, rest'⟩, hr, hvalue⟩ := Option.bind_eq_some_iff.mp h
    obtain ⟨⟨value, rest''⟩, hr', heq⟩ := Option.map_eq_some_iff.mp hvalue
    cases heq
    exact (takeBytes_suffix hr').trans (decodeVarint_suffix hr)
  · cases h
    exact List.suffix_refl bs
  · cases h
    exact List.suffix_refl bs
  · obtain ⟨⟨value, rest'⟩, hr, heq⟩ := Option.map_eq_some_iff.mp h
    cases heq
    exact takeBytes_suffix hr
  · cases h

/-- The bytes are varints of one byte, each of them greater than the number of bytes
after it: taken for a length, it is too large. -/
def NoLength (bs : List UInt8) : Prop := ∀ b ∈ bs, bs.length ≤ b.toNat ∧ b.toNat < 128

theorem NoLength.suffix {bs rest : List UInt8} (h : NoLength bs) (hsuffix : rest <:+ bs) :
    NoLength rest := fun b hb =>
  ⟨hsuffix.length_le.trans (h b (hsuffix.mem hb)).1, (h b (hsuffix.mem hb)).2⟩

theorem NoLength.decodeVarint {b : UInt8} {bs : List UInt8} (h : NoLength (b :: bs)) (k : ℕ) :
    decodeVarint (k + 1) (b :: bs) = some (b.toNat, bs) := by
  simp [Wire.decodeVarint, (h b List.mem_cons_self).2]

theorem NoLength.readContent {number kind : ℕ} {bs rest : List UInt8} {t : Token}
    (h : NoLength bs) (hread : readContent number bs kind = some (t, rest)) :
    ∀ n value, t ≠ .field ⟨n, .bytes value⟩ := by
  rintro n value rfl
  unfold Wire.readContent at hread
  split at hread
  · obtain ⟨r, -, heq⟩ := Option.map_eq_some_iff.mp hread
    cases heq
  · obtain ⟨r, -, heq⟩ := Option.map_eq_some_iff.mp hread
    cases heq
  · cases bs with
    | nil => cases hread
    | cons b bs =>
        have hlong : ¬ b.toNat ≤ bs.length := by
          have := (h b List.mem_cons_self).1
          rw [List.length_cons] at this
          omega
        rw [h.decodeVarint, Option.bind_some, takeBytes, if_neg hlong] at hread
        cases hread
  · cases hread
  · cases hread
  · obtain ⟨r, -, heq⟩ := Option.map_eq_some_iff.mp hread
    cases heq
  · cases hread

theorem NoLength.tokens {k : ℕ} {bs : List UInt8} {ts : List Token} (h : NoLength bs)
    (htokens : tokens k bs = some ts) (n : ℕ) (value : List UInt8) :
    .field ⟨n, .bytes value⟩ ∉ ts := by
  induction k generalizing bs ts with
  | zero =>
      cases bs with
      | nil =>
          cases htokens
          exact List.not_mem_nil
      | cons b bs => cases htokens
  | succ k ih =>
      cases bs with
      | nil =>
          cases htokens
          exact List.not_mem_nil
      | cons b bs =>
          obtain ⟨⟨t, rest⟩, hread, hmore⟩ := Option.bind_eq_some_iff.mp htokens
          obtain ⟨ts', hts', rfl⟩ := Option.map_eq_some_iff.mp hmore
          have htail : NoLength bs := h.suffix (List.suffix_cons b bs)
          rw [readToken, h.decodeVarint, Option.bind_some] at hread
          dsimp only at hread
          split at hread
          · cases hread
          · intro hmem
            rcases List.mem_cons.mp hmem with heq | hmem'
            · exact htail.readContent hread n value heq.symm
            · exact ih (htail.suffix (readContent_suffix hread)) hts' hmem'

theorem mem_of_ungroup {limit : ℕ} {opened : List ℕ} {ts : List Token} {fs : List Field}
    (h : ungroup limit opened ts = some fs) {f : Field} (hf : f ∈ fs) : .field f ∈ ts := by
  induction ts generalizing opened fs with
  | nil =>
      cases opened with
      | nil =>
          cases h
          cases hf
      | cons m opened => cases h
  | cons t ts ih =>
      refine List.mem_cons.mpr ?_
      cases t with
      | field g =>
          cases opened with
          | nil =>
              obtain ⟨gs, hgs, rfl⟩ := Option.map_eq_some_iff.mp h
              rcases List.mem_cons.mp hf with rfl | hf'
              · exact Or.inl rfl
              · exact Or.inr (ih hgs hf')
          | cons m opened => exact Or.inr (ih h hf)
      | startGroup n =>
          refine Or.inr ?_
          cases opened <;>
          · simp only [ungroup] at h
            split at h
            · exact ih h hf
            · cases h
      | endGroup n =>
          refine Or.inr ?_
          cases opened with
          | nil => cases h
          | cons m opened =>
              simp only [ungroup] at h
              split at h
              · exact ih h hf
              · cases h

theorem NoLength.fields {limit : ℕ} {bs : List UInt8} {fs : List Field} (h : NoLength bs)
    (hfields : fields limit bs = some fs) (n : ℕ) (value : List UInt8) :
    ⟨n, .bytes value⟩ ∉ fs := by
  obtain ⟨ts, hts, hgroups⟩ := Option.bind_eq_some_iff.mp hfields
  exact fun hmem => h.tokens hts n value (mem_of_ungroup hgroups hmem)

/-! ### Text -/

/-- The bytes that may continue a character, as ranges. -/
def continuation (n : ℕ) : List (UInt8 × UInt8) := List.replicate n (0x80, 0xBF)

/-- One byte of UTF-8, where `expected` are the ranges of the bytes that are still
missing from the present character. -/
def utf8Step : List (UInt8 × UInt8) → UInt8 → Option (List (UInt8 × UInt8))
  | range :: expected, b => if range.1 ≤ b ∧ b ≤ range.2 then some expected else none
  | [], b =>
      if b < 0x80 then some []
      else if b < 0xC2 then none
      else if b < 0xE0 then some (continuation 1)
      else if b = 0xE0 then some ((0xA0, 0xBF) :: continuation 1)
      else if b = 0xED then some ((0x80, 0x9F) :: continuation 1)
      else if b < 0xF0 then some (continuation 2)
      else if b = 0xF0 then some ((0x90, 0xBF) :: continuation 2)
      else if b < 0xF4 then some (continuation 3)
      else if b = 0xF4 then some ((0x80, 0x8F) :: continuation 2)
      else none

/-- The bytes are well-formed UTF-8. -/
def IsText (bs : List UInt8) : Prop := bs.foldlM utf8Step [] = some []

instance (bs : List UInt8) : Decidable (IsText bs) := inferInstanceAs (Decidable (_ = _))

theorem isText_nil : IsText [] := rfl

theorem IsText.append {as bs : List UInt8} (ha : IsText as) (hb : IsText bs) :
    IsText (as ++ bs) := by
  unfold IsText at *
  rw [List.foldlM_append, ha]
  exact hb

/-! ### Reading and writing a message -/

/-- The field of a number, left out when it is zero. -/
def uint (number value : ℕ) : List Field :=
  if value = 0 then [] else [⟨number, .varint value⟩]

/-- The field of a string, left out when it is empty. -/
def text (number : ℕ) (value : List UInt8) : List Field :=
  if value = [] then [] else [⟨number, .bytes value⟩]

/-- The field of a message with the given fields. -/
def nested (number : ℕ) (fs : List Field) : List Field := [⟨number, .bytes (encode fs)⟩]

/-- Reads the fields of a message into one that is there already. -/
def merge {M : Type*} (step : M → Field → Option M) (limit : ℕ) (message : M)
    (bs : List UInt8) : Option M :=
  (fields limit bs).bind fun fs => fs.foldlM step message

section

variable {M : Type*} {step : M → Field → Option M}

/-- The fields lead from `m` to `m'` if the strings in `texts` are well formed, and
are refused otherwise. -/
def Reads (step : M → Field → Option M) (m : M) (fs : List Field) (texts : List (List UInt8))
    (m' : M) : Prop :=
  fs.foldlM step m = if ∀ s ∈ texts, IsText s then some m' else none

theorem Reads.nil (step : M → Field → Option M) (m : M) : Reads step m [] [] m := by
  simp [Reads]

theorem Reads.append {m m' m'' : M} {fs gs : List Field} {texts more : List (List UInt8)}
    (hfs : Reads step m fs texts m') (hgs : Reads step m' gs more m'') :
    Reads step m (fs ++ gs) (texts ++ more) m'' := by
  unfold Reads at *
  rw [List.foldlM_append, hfs]
  by_cases htexts : ∀ s ∈ texts, IsText s
  · rw [if_pos htexts]
    refine hgs.trans (if_congr ?_ rfl rfl)
    rw [List.forall_mem_append, and_iff_right htexts]
  · rw [if_neg htexts, if_neg fun h => htexts (List.forall_mem_append.mp h).1]
    rfl

theorem Reads.field {m m' : M} {f : Field} {texts : List (List UInt8)}
    (hstep : step m f = if ∀ s ∈ texts, IsText s then some m' else none) :
    Reads step m [f] texts m' := by
  simpa [Reads] using hstep

theorem Reads.uint {number value : ℕ} {m m' : M} (hzero : value = 0 → m = m')
    (hstep : step m ⟨number, .varint value⟩ = some m') :
    Reads step m (uint number value) [] m' := by
  unfold Wire.uint
  split
  · next h =>
      rw [hzero h]
      exact .nil step m'
  · exact .field (by simpa using hstep)

theorem Reads.text {number : ℕ} {value : List UInt8} {m m' : M} (hnil : value = [] → m = m')
    (hstep : step m ⟨number, .bytes value⟩ = if IsText value then some m' else none) :
    Reads step m (text number value) [value] m' := by
  unfold Wire.text
  split
  · next h =>
      rw [hnil h, h]
      simp [Reads, isText_nil]
  · exact .field (by simpa using hstep)

/-- The number is in range and the content is not too large, the length of bytes
apart. -/
structure Field.Legal (f : Field) : Prop where
  pos : 0 < f.number
  lt : f.number < 2 ^ 29
  content : f.content.Fits ∨ ∃ value, f.content = .bytes value

theorem length_content_le {f : Field} {value : List UInt8} (h : f.content = .bytes value) :
    value.length ≤ f.encode.length := by
  simp only [Field.encode, h, Content.encode, List.length_append]
  omega

theorem length_encode_le {fs : List Field} {f : Field} (h : f ∈ fs) :
    f.encode.length ≤ (encode fs).length := by
  obtain ⟨before, after, rfl⟩ := List.append_of_mem h
  simp only [encode, List.flatMap_append, List.flatMap_cons, List.length_append]
  omega

theorem merge_encode_eq {m : M} {fs : List Field} (limit : ℕ) (hlegal : ∀ f ∈ fs, f.Legal)
    (hlength : (encode fs).length < 2 ^ 31) :
    merge step limit m (encode fs) = fs.foldlM step m := by
  have hfits : ∀ f ∈ fs, f.Fits := by
    intro f hf
    refine ⟨(hlegal f hf).pos, (hlegal f hf).lt, ?_⟩
    rcases (hlegal f hf).content with hcontent | ⟨value, hvalue⟩
    · exact hcontent
    · rw [hvalue]
      have hshort := length_content_le hvalue
      have hpart := length_encode_le hf
      change value.length < 2 ^ 31
      omega
  rw [merge, fields_encode limit hfits, Option.bind_some]

theorem merge_encode {m m' : M} {fs : List Field}
    {texts : List (List UInt8)} (limit : ℕ) (hlegal : ∀ f ∈ fs, f.Legal)
    (hlength : (encode fs).length < 2 ^ 31) (hreads : Reads step m fs texts m') :
    merge step limit m (encode fs) = if ∀ s ∈ texts, IsText s then some m' else none :=
  (merge_encode_eq limit hlegal hlength).trans hreads

/-- What every field that is read preserves holds of the message. -/
theorem foldlM_invariant {P : M → Prop} {fs : List Field} {m m' : M}
    (hstep : ∀ f ∈ fs, ∀ m m', P m → step m f = some m' → P m') (hm : P m)
    (h : fs.foldlM step m = some m') : P m' := by
  induction fs generalizing m with
  | nil => exact Option.some.inj h ▸ hm
  | cons f fs ih =>
      obtain ⟨n, hn, hrest⟩ := Option.bind_eq_some_iff.mp h
      exact ih (fun g hg => hstep g (List.mem_cons_of_mem f hg))
        (hstep f List.mem_cons_self m n hm hn) hrest

theorem merge_invariant {P : M → Prop} {limit : ℕ} {bs : List UInt8} {m m' : M}
    (hstep : ∀ fs, fields limit bs = some fs → ∀ f ∈ fs, ∀ m m', P m → step m f = some m' → P m')
    (hm : P m) (h : merge step limit m bs = some m') : P m' := by
  obtain ⟨fs, hfs, hfold⟩ := Option.bind_eq_some_iff.mp h
  exact foldlM_invariant (hstep fs hfs) hm hfold

theorem Reads.nested {N : Type*} {inner : N → Field → Option N} {number limit : ℕ}
    {fs : List Field} {texts : List (List UInt8)} {m m' : M} {empty n : N} (wrap : N → M)
    (hmerge : merge inner limit empty (encode fs) =
      if ∀ s ∈ texts, IsText s then some n else none)
    (hstep : step m ⟨number, .bytes (encode fs)⟩ =
      (merge inner limit empty (encode fs)).map wrap)
    (hwrap : wrap n = m') : Reads step m (nested number fs) texts m' := by
  refine .field ?_
  rw [hstep, hmerge]
  split
  · exact congrArg some hwrap
  · rfl

end

theorem length_encode_append (fs gs : List Field) :
    (encode (fs ++ gs)).length = (encode fs).length + (encode gs).length := by
  simp [encode]

theorem length_encode_varint_le (number value : ℕ) :
    (encode [⟨number, .varint value⟩]).length ≤ 15 := by
  have htag := length_encodeVarint_le 5 (8 * number + 0)
  have hvalue := length_encodeVarint_le 10 value
  simp only [encode, List.flatMap_singleton, Field.encode, Content.encode, Content.wireType,
    List.length_append]
  omega

theorem length_encode_bytes_le (number : ℕ) (value : List UInt8) :
    (encode [⟨number, .bytes value⟩]).length ≤ value.length + 10 := by
  have htag := length_encodeVarint_le 5 (8 * number + 2)
  have hlength := length_encodeVarint_le 5 value.length
  simp only [encode, List.flatMap_singleton, Field.encode, Content.encode, Content.wireType,
    List.length_append]
  omega

theorem length_encode_uint_le (number value : ℕ) : (encode (uint number value)).length ≤ 15 := by
  unfold uint
  split
  · simp [encode]
  · exact length_encode_varint_le number value

theorem length_encode_nested_le (number : ℕ) (fs : List Field) :
    (encode (nested number fs)).length ≤ (encode fs).length + 10 :=
  length_encode_bytes_le number (encode fs)

theorem legal_append {fs gs : List Field} (hfs : ∀ f ∈ fs, f.Legal) (hgs : ∀ f ∈ gs, f.Legal) :
    ∀ f ∈ fs ++ gs, f.Legal :=
  List.forall_mem_append.mpr ⟨hfs, hgs⟩

theorem legal_varint {number value : ℕ} (hpos : 0 < number) (hlt : number < 2 ^ 29)
    (hvalue : value < 2 ^ 64) : ∀ f ∈ [(⟨number, .varint value⟩ : Field)], f.Legal := by
  simp only [List.mem_singleton, forall_eq]
  exact ⟨hpos, hlt, Or.inl hvalue⟩

theorem legal_bytes {number : ℕ} (value : List UInt8) (hpos : 0 < number)
    (hlt : number < 2 ^ 29) : ∀ f ∈ [(⟨number, .bytes value⟩ : Field)], f.Legal := by
  simp only [List.mem_singleton, forall_eq]
  exact ⟨hpos, hlt, Or.inr ⟨value, rfl⟩⟩

theorem legal_uint {number value : ℕ} (hpos : 0 < number) (hlt : number < 2 ^ 29)
    (hvalue : value < 2 ^ 64) : ∀ f ∈ uint number value, f.Legal := by
  unfold uint
  split
  · simp
  · exact legal_varint hpos hlt hvalue

theorem legal_text {number : ℕ} (value : List UInt8) (hpos : 0 < number)
    (hlt : number < 2 ^ 29) : ∀ f ∈ text number value, f.Legal := by
  unfold text
  split
  · simp
  · exact legal_bytes value hpos hlt

end Wire
