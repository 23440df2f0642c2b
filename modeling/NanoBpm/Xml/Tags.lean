import NanoBpm.Xml.Entities

/-!
# Tags

How the attributes of a tag are read, round after round, from the first to the last, to a place where they are malformed or to
one where the scan goes on inside of a character.
-/

namespace NanoBpm.Xml

open Utf8 Relation

variable {s t xml rest a b seg ws ws' ws'' raw value : List Char} {c d q : Char} {i j n : Nat}

/-! ## White space -/

theorem isWhiteSpace_of_ascii (h : isAsciiSpace c) : isWhiteSpace c := by
  unfold isAsciiSpace at h
  simp only [Bool.or_eq_true, beq_iff_eq] at h
  obtain (((rfl | rfl) | rfl) | rfl) | rfl := h <;> decide

theorem trimEnd_eq_nil : trimEnd s = [] ↔ ∀ c ∈ s, isWhiteSpace c := by
  rw [trimEnd, List.reverse_eq_nil_iff, List.dropWhile_eq_nil_iff]
  simp

theorem trim_eq_nil : trim s = [] ↔ ∀ c ∈ s, isWhiteSpace c := by
  rw [trim, trimEnd_eq_nil, trimStart]
  constructor
  · intro h c hc
    rw [← List.takeWhile_append_dropWhile (p := isWhiteSpace) (l := s)] at hc
    rcases List.mem_append.mp hc with hc | hc
    · exact List.mem_takeWhile_imp hc
    · exact h c hc
  · exact fun h c hc => h c (List.dropWhile_subset _ hc)

def Spaces (ws : List Char) : Prop := ∀ c ∈ ws, isAsciiSpace c

def NoSpace (rest : List Char) : Prop := ∀ c ∈ rest.head?, isAsciiSpace c = false

/-- What a name of an attribute is read of. -/
def isKeyChar (c : Char) : Bool := !(c == '=' || isAsciiSpace c)

def Key (seg : List Char) : Prop := ∀ c ∈ seg, isKeyChar c

theorem uniform_key : Uniform (fun x => !(isByte '=' x || isAsciiWhitespace x)) isKeyChar :=
  ((Uniform.isByte (by decide)).or uniform_space).not

/-- A text up to the first character that fails a test, and the rest. -/
theorem span_cases (P : Char → Bool) (s : List Char) :
    ∃ a b, s = a ++ b ∧ (∀ c ∈ a, P c) ∧ ∀ c ∈ b.head?, P c = false := by
  refine ⟨s.takeWhile P, s.dropWhile P, List.takeWhile_append_dropWhile.symm, fun _ => List.mem_takeWhile_imp, fun x hx => ?_⟩
  have := List.head?_dropWhile_not P s
  rw [Option.mem_def.mp hx] at this
  exact this

/-! ## One round -/

/-- White space that no scan of the bytes takes for such. -/
def Odd (seg : List Char) : Prop := ∀ c ∈ seg, isWhiteSpace c ∧ isAsciiSpace c = false

/-- One round over the attributes: one with a value, a name without one, or a character that is skipped. -/
inductive AttrStep : List Char → List Char → Prop
  | valued {seg ws ws' raw ws'' rest : List Char} {q : Char} : Key seg → Spaces ws → Spaces ws' → isQuoteChar q → q ∉ raw → Spaces ws'' →
      NoSpace rest → AttrStep (seg ++ (ws ++ '=' :: (ws' ++ q :: (raw ++ q :: (ws'' ++ rest))))) rest
  | bare {seg ws rest : List Char} : Key seg → trim seg ≠ [] → Spaces ws → (∀ c ∈ (ws ++ rest).head?, isKeyChar c = false) →
      (∀ c ∈ rest.head?, isKeyChar c) → AttrStep (seg ++ (ws ++ rest)) rest
  | skipped {seg ws rest : List Char} {c : Char} : Odd seg → Spaces ws → ws ≠ [] → isKeyChar c → c.toNat < 128 →
      AttrStep (seg ++ (ws ++ c :: rest)) rest

/-- A character of several bytes stands where a name of an attribute is only odd white space, or none. -/
def Stray (s : List Char) : Prop := ∃ seg ws c rest, s = seg ++ (ws ++ c :: rest) ∧ Odd seg ∧ Spaces ws ∧ ws ≠ [] ∧ 128 ≤ c.toNat

/-- Nothing is left but white space. -/
def Ended (s : List Char) : Prop := ∃ seg ws, s = seg ++ ws ∧ Odd seg ∧ Spaces ws

theorem ended_nil : Ended [] := ⟨[], [], rfl, fun _ h => absurd h List.not_mem_nil, fun _ h => absurd h List.not_mem_nil⟩

theorem isKeyChar_of_odd (h : isWhiteSpace c ∧ isAsciiSpace c = false) : isKeyChar c := by
  have hne : c ≠ '=' := by
    rintro rfl
    exact absurd h.1 (by decide)
  simp [isKeyChar, h.2, hne]

theorem Odd.key (h : Odd seg) : Key seg := fun c hc => isKeyChar_of_odd (h c hc)

theorem Odd.trim (h : Odd seg) : trim seg = [] := trim_eq_nil.mpr fun c hc => (h c hc).1

theorem odd_iff : Odd seg ↔ Key seg ∧ Xml.trim seg = [] := by
  refine ⟨fun h => ⟨h.key, h.trim⟩, fun ⟨hkey, htrim⟩ c hc => ⟨trim_eq_nil.mp htrim c hc, ?_⟩⟩
  have := hkey c hc
  simp only [isKeyChar, Bool.not_eq_true', Bool.or_eq_false_iff] at this
  exact this.2

theorem isKeyChar_of_ge (h : 128 ≤ c.toNat) : isKeyChar c := by
  have hne (d : Char) (hd : d.toNat < 128) : (c == d) = false := by
    rw [beq_eq_false_iff_ne]
    rintro rfl
    omega
  simp [isKeyChar, isAsciiSpace, hne '=' (by decide), hne ' ' (by decide), hne '\t' (by decide), hne '\n' (by decide),
    hne '\x0C' (by decide), hne '\r' (by decide)]

/-- A name and the white space after it, and what the round does from there on. -/
theorem attrAt_key (h : At s i (seg ++ (ws ++ rest))) (hseg : Key seg) (hstop : ∀ c ∈ (ws ++ rest).head?, isKeyChar c = false)
    (hws : Spaces ws) (hrest : NoSpace rest) :
    attrAt s i = if !rest.head?.any (· == '=') then
        .ok (none, if (trim seg).isEmpty then i + size seg + size ws + 1 else i + size seg + size ws)
      else
        match (bytes s)[i + size seg + size ws + 1 + scanWhile isAsciiWhitespace ((bytes s).drop (i + size seg + size ws + 1))]?.filter
          isQuote with
        | none => .error (.malformed s!"attribute {String.ofList (trim seg)} has no quoted value")
        | some q => attrValue s q (trim seg)
          (i + size seg + size ws + 1 + scanWhile isAsciiWhitespace ((bytes s).drop (i + size seg + size ws + 1)) + 1) := by
  unfold attrAt
  dsimp only
  rw [h.drop, uniform_key.scanWhile_append hseg hstop, cut_append h, h.append.drop, uniform_space.scanWhile_append hws hrest,
    ← byte_at h.append.append (by decide)]
  rfl

theorem isKeyChar_iff : isKeyChar c ↔ c ≠ '=' ∧ isAsciiSpace c = false := by
  simp [isKeyChar]

theorem noSpace_of_key (h : ∀ c ∈ rest.head?, isKeyChar c) : NoSpace rest := fun c hc => (isKeyChar_iff.mp (h c hc)).2

/-- A name without a value is passed, and when it is no name a byte more. -/
theorem attrAt_bare (h : At s i (seg ++ (ws ++ rest))) (hseg : Key seg) (hws : Spaces ws)
    (hstop : ∀ c ∈ (ws ++ rest).head?, isKeyChar c = false) (hrest : ∀ c ∈ rest.head?, isKeyChar c) :
    attrAt s i = .ok (none, if (trim seg).isEmpty then i + size seg + size ws + 1 else i + size seg + size ws) := by
  have hne : rest.head?.any (· == '=') = false := by
    cases hhead : rest.head? with
    | none => rfl
    | some c => simpa using (isKeyChar_iff.mp (hrest c hhead)).1
  rw [attrAt_key h hseg hstop hws (noSpace_of_key hrest), hne]
  rfl

/-- After odd white space a byte is passed, whatever it is one of. -/
theorem attrAt_odd (h : At s i (seg ++ (ws ++ rest))) (hodd : Odd seg) (hws : Spaces ws)
    (hstop : ∀ c ∈ (ws ++ rest).head?, isKeyChar c = false) (hrest : ∀ c ∈ rest.head?, isKeyChar c) :
    attrAt s i = .ok (none, i + size seg + size ws + 1) := by
  rw [attrAt_bare h hodd.key hws hstop hrest, hodd.trim]
  rfl

theorem hstop_spaces (hws : Spaces ws) (hne : ws ≠ []) (rest : List Char) : ∀ c ∈ (ws ++ rest).head?, isKeyChar c = false := by
  intro c hc
  cases ws with
  | nil => exact absurd rfl hne
  | cons x ws =>
    obtain rfl := Option.some.inj hc
    simp [isKeyChar, hws x List.mem_cons_self]

theorem hstop_equals (hws : Spaces ws) (rest : List Char) : ∀ c ∈ (ws ++ '=' :: rest).head?, isKeyChar c = false := by
  cases ws with
  | nil =>
    intro c hc
    obtain rfl := Option.some.inj hc
    decide
  | cons x ws => exact hstop_spaces hws (List.cons_ne_nil x ws) _

theorem isQuoteChar_ascii (h : isQuoteChar q) : q.toNat < 128 ∧ isAsciiSpace q = false := by
  simp only [isQuoteChar, Bool.or_eq_true, beq_iff_eq] at h
  obtain rfl | rfl := h <;> decide

theorem quote_at (h : At s i rest) : (bytes s)[i]?.filter isQuote = (rest.head?.filter isQuoteChar).map Char.toUInt8 := by
  rw [h.getElem?]
  cases rest with
  | nil => rfl
  | cons c rest =>
    rw [bytes_cons]
    have hall := uniform_quote c
    cases hq : isQuoteChar c with
    | true =>
      rw [utf8EncodeChar_ascii (isQuoteChar_ascii hq).1] at hall ⊢
      have := hall _ List.mem_cons_self
      simp [Option.filter, hq, this]
    | false =>
      cases henc : String.utf8EncodeChar c with
      | nil => exact absurd henc String.utf8EncodeChar_ne_nil
      | cons x xs =>
        have := hall x (henc ▸ List.mem_cons_self)
        simp [Option.filter, hq, this]

/-- Up to the place of a value. -/
theorem attrAt_equals (h : At s i (seg ++ (ws ++ '=' :: (ws' ++ rest)))) (hseg : Key seg) (hws : Spaces ws) (hws' : Spaces ws')
    (hrest : NoSpace rest) :
    ∃ j, i < j ∧ At s j rest ∧ attrAt s i =
      match rest.head?.filter isQuoteChar with
      | none => .error (.malformed s!"attribute {String.ofList (trim seg)} has no quoted value")
      | some q => attrValue s q.toUInt8 (trim seg) (j + 1) := by
  have hat : At s (i + size seg + size ws + 1) (ws' ++ rest) := h.append.append.cons
  refine ⟨_, by omega, hat.append, ?_⟩
  rw [attrAt_key h hseg (hstop_equals hws _) hws (by intro c hc; obtain rfl := Option.some.inj hc; decide), hat.drop,
    uniform_space.scanWhile_append hws' hrest, quote_at hat.append]
  cases rest.head?.filter isQuoteChar <;> rfl

theorem uniform_not_quote (hq : isQuoteChar q) : Uniform (fun b => !(b == q.toUInt8)) fun c => !(c == q) :=
  (Uniform.isByte (isQuoteChar_ascii hq).1).not

theorem attrValue_unterminated {key : List Char} (h : At s i raw) (hq : isQuoteChar q) (hraw : q ∉ raw) :
    attrValue s q.toUInt8 key i = .error (.malformed "unterminated attribute") := by
  have hscan : scanWhile (fun b => !(b == q.toUInt8)) ((bytes s).drop i) = size raw := by
    have := (uniform_not_quote hq).scanWhile_append (a := raw) (b := []) (fun c hc => by
      have : c ≠ q := fun heq => hraw (heq ▸ hc)
      simpa using this) (by simp)
    rwa [List.append_nil, ← h.drop] at this
  unfold attrValue
  dsimp only
  rw [hscan, if_pos (by rw [length_bytes]; exact h.size_eq.ge)]

theorem attrValue_quoted (key : List Char) (h : At s i (raw ++ q :: (ws ++ rest))) (hq : isQuoteChar q) (hraw : q ∉ raw) (hws : Spaces ws)
    (hrest : NoSpace rest) (hvalue : unescape raw = .ok value) :
    ∃ j, i < j ∧ At s j rest ∧ attrValue s q.toUInt8 key i = .ok (if key.isEmpty then none else some (key, value), j) := by
  have hscan : scanWhile (fun b => !(b == q.toUInt8)) (bytes (raw ++ q :: (ws ++ rest))) = size raw := by
    refine (uniform_not_quote hq).scanWhile_append (fun c hc => ?_) fun c hc => ?_
    · have : c ≠ q := fun heq => hraw (heq ▸ hc)
      simpa using this
    · obtain rfl := Option.some.inj hc
      simp
  have hsize : q.utf8Size = 1 := utf8Size_ascii (isQuoteChar_ascii hq).1
  have hat : At s (i + size raw + 1) (ws ++ rest) := hsize ▸ h.append.cons
  refine ⟨_, by omega, hat.append, ?_⟩
  have hlt : ¬ (bytes s).length ≤ i + size raw := Nat.not_le.mpr (LoopsFrom.lt h.append (List.cons_ne_nil _ _))
  unfold attrValue
  dsimp only
  rw [h.drop, hscan, if_neg hlt, cut_append h, hat.drop, uniform_space.scanWhile_append hws hrest]
  change (unescape raw >>= _) = _
  rw [hvalue]
  rfl

theorem attrAt_valued (h : At s i (seg ++ (ws ++ '=' :: (ws' ++ q :: (raw ++ q :: (ws'' ++ rest)))))) (hseg : Key seg) (hws : Spaces ws)
    (hws' : Spaces ws') (hq : isQuoteChar q) (hraw : q ∉ raw) (hws'' : Spaces ws'') (hrest : NoSpace rest)
    (hvalue : unescape raw = .ok value) :
    ∃ j, i < j ∧ At s j rest ∧ attrAt s i = .ok (if (trim seg).isEmpty then none else some (trim seg, value), j) := by
  have hquote : NoSpace (q :: (raw ++ q :: (ws'' ++ rest))) := by
    intro c hc
    obtain rfl := Option.some.inj hc
    exact (isQuoteChar_ascii hq).2
  obtain ⟨j, hij, hj, heq⟩ := attrAt_equals h hseg hws hws' hquote
  have hsize : q.utf8Size = 1 := utf8Size_ascii (isQuoteChar_ascii hq).1
  have hat : At s (j + 1) (raw ++ q :: (ws'' ++ rest)) := hsize ▸ hj.cons
  obtain ⟨k, hjk, hk, hattr⟩ := attrValue_quoted (trim seg) hat hq hraw hws'' hrest hvalue
  refine ⟨k, by omega, hk, ?_⟩
  rw [heq, List.head?_cons, Option.filter_some, if_pos hq]
  exact hattr

theorem AttrStep.length_lt (h : AttrStep s rest) : rest.length < s.length := by
  cases h with
  | valued => simp; omega
  | @bare seg ws rest _ htrim =>
    have hne : seg ≠ [] := by
      rintro rfl
      exact htrim rfl
    have := List.length_pos_iff.mpr hne
    simp only [List.length_append]
    omega
  | skipped => simp; omega

theorem attrAt_step (h : At s i t) (hstep : AttrStep t rest) : ∃ x j, attrAt s i = .ok (x, j) ∧ i < j ∧ At s j rest := by
  cases hstep with
  | @valued seg ws ws' raw ws'' _ q hseg hws hws' hq hraw hws'' hrest =>
    obtain ⟨value, hvalue⟩ := unescape_total raw
    obtain ⟨j, hij, hj, heq⟩ := attrAt_valued h hseg hws hws' hq hraw hws'' hrest hvalue
    exact ⟨_, j, heq, hij, hj⟩
  | @bare seg ws _ hseg htrim hws hstop hrest =>
    have hpos : 0 < size seg := size_pos (by rintro rfl; exact htrim rfl)
    have heq := attrAt_bare h hseg hws hstop hrest
    rw [List.isEmpty_eq_false_iff.mpr htrim, if_neg Bool.false_ne_true] at heq
    exact ⟨none, _, heq, by omega, h.append.append⟩
  | @skipped seg ws _ c hodd hws hne hc hascii =>
    have hkey : ∀ x ∈ (c :: rest).head?, isKeyChar x := by
      intro x hx
      obtain rfl := Option.some.inj hx
      exact hc
    have heq := attrAt_odd h hodd hws (hstop_spaces hws hne _) hkey
    have hsize : c.utf8Size = 1 := utf8Size_ascii hascii
    exact ⟨none, _, heq, by omega, hsize ▸ h.append.append.cons⟩

theorem reader_attr : Reader attrAt AttrStep := ⟨attrAt_step, AttrStep.length_lt⟩

theorem attrs_ended (h : At s i t) (ht : Ended t) : LoopsFrom attrAt .endless s i (.ok []) := by
  obtain ⟨seg, ws, rfl, hodd, hws⟩ := ht
  cases hnil : seg ++ ws with
  | nil =>
    rw [hnil] at h
    exact .done h
  | cons c u =>
    have hlt := LoopsFrom.lt h (hnil ▸ List.cons_ne_nil c u)
    have hsize := h.size_eq
    have hat : At s i (seg ++ (ws ++ [])) := by rwa [List.append_nil]
    have hstop : ∀ x ∈ (ws ++ []).head?, isKeyChar x = false := by
      cases ws with
      | nil => simp
      | cons x ws => exact hstop_spaces hws (List.cons_ne_nil x ws) []
    have heq := attrAt_odd hat hodd hws hstop (by simp)
    rw [size_append] at hsize
    have hdone : LoopsFrom attrAt .endless s (i + size seg + size ws + 1) (.ok []) := Loops.done (by rw [length_bytes]; omega)
    exact Loops.step hlt heq (by omega) hdone

/-- The round after the one that passes the first byte of the character cuts inside of it. -/
theorem attrs_stray (h : At s i t) (ht : Stray t) : LoopsFrom attrAt .endless s i (.error .panicked) := by
  obtain ⟨seg, ws, c, rest, rfl, hodd, hws, hne, hc⟩ := ht
  have hkey : ∀ x ∈ (c :: rest).head?, isKeyChar x := by
    intro x hx
    obtain rfl := Option.some.inj hx
    exact isKeyChar_of_ge hc
  have heq := attrAt_odd h hodd hws (hstop_spaces hws hne _) hkey
  have hat : At s (i + size seg + size ws) (c :: rest) := h.append.append
  have hwide : 1 < c.utf8Size := utf8Size_wide hc
  have hcut (j : Nat) : cut s (i + size seg + size ws + 1) j = .error .panicked := by
    rw [cut, hat.inside (by decide) hwide]
  have hnext : attrAt s (i + size seg + size ws + 1) = .error .panicked := by
    unfold attrAt
    dsimp only
    rw [hcut]
    rfl
  have hlt : i + size seg + size ws + 1 < (bytes s).length := by
    have := hat.size_eq
    rw [size_cons] at this
    rw [length_bytes]
    omega
  have hlt' : i < (bytes s).length := by omega
  exact Loops.step hlt' heq (by omega) (.fault hlt hnext)

/-- The value after an equals sign is quoted to its end, or malformed. -/
theorem attrAt_equals_cases (hseg : Key seg) (hws : Spaces ws) (u : List Char) :
    (∃ rest, AttrStep (seg ++ (ws ++ '=' :: u)) rest) ∨
      ∀ s i, At s i (seg ++ (ws ++ '=' :: u)) → ∃ m, attrAt s i = .error (.malformed m) := by
  obtain ⟨ws', v, rfl, hws', hv⟩ := span_cases isAsciiSpace u
  cases hquote : v.head?.filter isQuoteChar with
  | none =>
    refine .inr fun s i h => ?_
    obtain ⟨j, -, -, heq⟩ := attrAt_equals h hseg hws hws' hv
    rw [hquote] at heq
    exact ⟨_, heq⟩
  | some q =>
    obtain ⟨hhead, hq⟩ := Option.filter_eq_some_iff.mp hquote
    cases v with
    | nil => cases hhead
    | cons x v =>
      obtain rfl := Option.some.inj hhead
      obtain ⟨raw, w, rfl, hraw, hw⟩ := span_cases (fun c => !(c == x)) v
      have hmem : x ∉ raw := fun hx => by simpa using hraw x hx
      cases w with
      | nil =>
        refine .inr fun s i h => ?_
        obtain ⟨j, -, hj, heq⟩ := attrAt_equals h hseg hws hws' hv
        have hsize : x.utf8Size = 1 := utf8Size_ascii (isQuoteChar_ascii hq).1
        rw [hquote] at heq
        rw [List.append_nil] at hj
        exact ⟨_, heq.trans (attrValue_unterminated (hsize ▸ hj.cons) hq hmem)⟩
      | cons y w =>
        obtain rfl : y = x := by simpa using hw y rfl
        obtain ⟨ws'', rest, rfl, hws'', hrest⟩ := span_cases isAsciiSpace w
        exact .inl ⟨rest, .valued hseg hws hws' hq hmem hws'' hrest⟩

def Malformed (e : Fault) : Prop := ∃ m, e = .malformed m

/-- What a round meets. -/
theorem attrAt_cases (t : List Char) :
    (∃ rest, AttrStep t rest) ∨ Ended t ∨ Stray t ∨ ∀ s i, At s i t → ∃ e, Malformed e ∧ attrAt s i = .error e := by
  obtain ⟨seg, u, rfl, hseg, hstop⟩ := span_cases isKeyChar t
  obtain ⟨ws, r, rfl, hws, hr⟩ := span_cases isAsciiSpace u
  by_cases hequals : r.head? = some '='
  · cases r with
    | nil => cases hequals
    | cons x r =>
      obtain rfl := Option.some.inj hequals
      rcases attrAt_equals_cases hseg hws r with hstep | hmalformed
      · exact .inl hstep
      · refine .inr (.inr (.inr fun s i h => ?_))
        obtain ⟨m, hm⟩ := hmalformed s i h
        exact ⟨_, ⟨m, rfl⟩, hm⟩
  · have hkey : ∀ c ∈ r.head?, isKeyChar c := by
      intro c hc
      refine isKeyChar_iff.mpr ⟨?_, hr c hc⟩
      rintro rfl
      exact hequals hc
    by_cases htrim : trim seg = []
    · have hodd : Odd seg := odd_iff.mpr ⟨hseg, htrim⟩
      cases r with
      | nil => exact .inr (.inl ⟨seg, ws, by simp, hodd, hws⟩)
      | cons c r =>
        have hc := hkey c rfl
        have hne : ws ≠ [] := by
          rintro rfl
          have := hstop c rfl
          rw [hc] at this
          cases this
        rcases Nat.lt_or_ge c.toNat 128 with hascii | hwide
        · exact .inl ⟨r, .skipped hodd hws hne hc hascii⟩
        · exact .inr (.inr (.inl ⟨seg, ws, c, r, rfl, hodd, hws, hne, hwide⟩))
    · exact .inl ⟨r, .bare hseg htrim hws hstop hkey⟩

/-! ## A tag -/

def nameOf (inner : List Char) : List Char := (trim inner).takeWhile (!isWhiteSpace ·)

/-- The attributes of a tag, from the first on. -/
def attrPart (inner : List Char) : List Char := trimStart ((trim inner).dropWhile (!isWhiteSpace ·))

theorem parseTag_eq (inner : List Char) : parseTag inner =
    if (nameOf inner).isEmpty then .error (.malformed "empty tag name")
    else (collect (bytes (attrPart inner)).length .endless (attrAt (attrPart inner)) (bytes (attrPart inner)).length 0).map
      ((nameOf inner, ·)) := by
  have hsplit : trim inner = nameOf inner ++ (trim inner).dropWhile (!isWhiteSpace ·) := List.takeWhile_append_dropWhile.symm
  have hat : At (trim inner) 0 (nameOf inner ++ (trim inner).dropWhile (!isWhiteSpace ·)) := hsplit ▸ At.start _
  have hname : cut (trim inner) 0 (size (nameOf inner)) = .ok (nameOf inner) := by
    have := cut_append hat
    rwa [Nat.zero_add] at this
  have hrest : cut (trim inner) (size (nameOf inner)) (size (trim inner)) = .ok ((trim inner).dropWhile (!isWhiteSpace ·)) := by
    have := cut_end hat.append
    rwa [Nat.zero_add] at this
  unfold parseTag
  dsimp only
  change (cut (trim inner) 0 (size (nameOf inner)) >>= _) = _
  rw [hname]
  change (if (nameOf inner).isEmpty then _ else cut (trim inner) (size (nameOf inner)) (size (trim inner)) >>= _) = _
  rw [hrest]
  split
  · rfl
  · change (collect (bytes (attrPart inner)).length Fault.endless (attrAt (attrPart inner)) (bytes (attrPart inner)).length 0 >>= _) = _
    cases collect (bytes (attrPart inner)).length Fault.endless (attrAt (attrPart inner)) (bytes (attrPart inner)).length 0 <;> rfl

/-- A tag of which all attributes are read. -/
def ReadsTag (inner : List Char) : Prop := nameOf inner ≠ [] ∧ ∃ e, ReflTransGen AttrStep (attrPart inner) e ∧ Ended e

/-- A tag among the attributes of which there is a stray character. -/
def StrayTag (inner : List Char) : Prop := nameOf inner ≠ [] ∧ ∃ e, ReflTransGen AttrStep (attrPart inner) e ∧ Stray e

theorem parseTag_reads {inner : List Char} (h : ReadsTag inner) : ∃ r, parseTag inner = .ok r := by
  obtain ⟨hname, e, hsteps, he⟩ := h
  obtain ⟨j, xs, hj, hloop⟩ := reader_attr.steps (At.start _) hsteps
  rw [parseTag_eq, List.isEmpty_eq_false_iff.mpr hname, if_neg Bool.false_ne_true, (hloop _ (attrs_ended hj he)).result]
  exact ⟨_, rfl⟩

theorem parseTag_stray {inner : List Char} (h : StrayTag inner) : parseTag inner = .error .panicked := by
  obtain ⟨hname, e, hsteps, he⟩ := h
  obtain ⟨j, xs, hj, hloop⟩ := reader_attr.steps (At.start _) hsteps
  rw [parseTag_eq, List.isEmpty_eq_false_iff.mpr hname, if_neg Bool.false_ne_true, (hloop _ (attrs_stray hj he)).result]
  rfl

theorem parseTag_cases (inner : List Char) : ReadsTag inner ∨ StrayTag inner ∨ ∃ e, Malformed e ∧ parseTag inner = .error e := by
  by_cases hname : nameOf inner = []
  · refine .inr (.inr ⟨_, ⟨"empty tag name", rfl⟩, ?_⟩)
    rw [parseTag_eq, hname]
    rfl
  · rcases reader_attr.cases ended_nil (fun t _ => attrAt_cases t) (attrPart inner) with h | h | h
    · exact .inl ⟨hname, h⟩
    · exact .inr (.inl ⟨hname, h⟩)
    · obtain ⟨e, he, hloops⟩ := h _ _ (At.start _)
      refine .inr (.inr ⟨e, he, ?_⟩)
      rw [parseTag_eq, List.isEmpty_eq_false_iff.mpr hname, if_neg Bool.false_ne_true, hloops.result]
      rfl

end NanoBpm.Xml
