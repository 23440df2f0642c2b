import NanoBpm.Xml.Tags

/-!
# Tokens

What `tokenize` reads in a round: a run of text, a comment, a `CDATA` section, a declaration or a tag. It ends with the tokens of
a text, with an error, or, when it comes to a tag with a stray character, in a panic.
-/

namespace NanoBpm.Xml

open Utf8 Relation

variable {s t xml rest a b tag : List Char} {c d q : Char} {i j n : Nat}

/-! ## The end of a tag -/

/-- A tag up to its end: quotes are closed. -/
inductive Balanced : List Char → Prop
  | nil : Balanced []
  | plain {c : Char} {rest : List Char} : isQuoteChar c = false → c ≠ '>' → Balanced rest → Balanced (c :: rest)
  | quoted {q : Char} {raw rest : List Char} : isQuoteChar q → q ∉ raw → Balanced rest → Balanced (q :: (raw ++ q :: rest))

/-- A byte that neither opens or closes a quote nor ends the tag. -/
def Passes : Option UInt8 → UInt8 → Prop
  | none, x => isQuote x = false ∧ isByte '>' x = false
  | some q, x => (x == q) = false

theorem tagEnd_pass {quote : Option UInt8} {xs : List UInt8} (h : ∀ x ∈ xs, Passes quote x) (bs : List UInt8) :
    tagEnd quote (xs ++ bs) = (tagEnd quote bs).map (· + xs.length) := by
  induction xs with
  | nil => simp
  | cons x xs ih =>
    have hx := h x List.mem_cons_self
    cases quote with
    | none =>
      rw [List.cons_append, tagEnd]
      simp only [hx.1, hx.2, Bool.false_eq_true, if_false]
      rw [ih fun y hy => h y (List.mem_cons_of_mem _ hy), Option.map_map]
      rfl
    | some q =>
      have hne : (x == q) = false := hx
      rw [List.cons_append, tagEnd]
      simp only [hne, Bool.false_eq_true, if_false]
      rw [ih fun y hy => h y (List.mem_cons_of_mem _ hy), Option.map_map]
      rfl

theorem tagEnd_plain (hq : isQuoteChar c = false) (hc : c ≠ '>') (s : List Char) :
    tagEnd none (bytes (c :: s)) = (tagEnd none (bytes s)).map (· + c.utf8Size) := by
  rw [bytes_cons, tagEnd_pass, String.length_utf8EncodeChar]
  intro x hx
  have hgt : Uniform (isByte '>') (· == '>') := .isByte (by decide)
  exact ⟨(uniform_quote c x hx).trans hq, (hgt c x hx).trans (by simpa using hc)⟩

theorem tagEnd_inside {raw : List Char} (hq : isQuoteChar q) (hraw : q ∉ raw) (bs : List UInt8) :
    tagEnd (some q.toUInt8) (bytes raw ++ bs) = (tagEnd (some q.toUInt8) bs).map (· + size raw) := by
  rw [tagEnd_pass, length_bytes]
  intro x hx
  obtain ⟨c, hc, hx⟩ := List.mem_flatMap.mp hx
  have hne : c ≠ q := fun heq => hraw (heq ▸ hc)
  have huniform : Uniform (isByte q) (· == q) := .isByte (isQuoteChar_ascii hq).1
  exact (huniform c x hx).trans (by simpa using hne)

theorem isQuote_toUInt8 (hq : isQuoteChar q) : isQuote q.toUInt8 := by
  have := uniform_quote q q.toUInt8 (by rw [utf8EncodeChar_ascii (isQuoteChar_ascii hq).1]; exact List.mem_cons_self)
  rw [this, hq]

theorem tagEnd_open (hq : isQuoteChar q) (s : List Char) :
    tagEnd none (bytes (q :: s)) = (tagEnd (some q.toUInt8) (bytes s)).map (· + 1) := by
  rw [bytes_ascii_cons (isQuoteChar_ascii hq).1, tagEnd]
  simp only [isQuote_toUInt8 hq, if_true]

theorem tagEnd_close (hq : isQuoteChar q) (s : List Char) :
    tagEnd (some q.toUInt8) (bytes (q :: s)) = (tagEnd none (bytes s)).map (· + 1) := by
  rw [bytes_ascii_cons (isQuoteChar_ascii hq).1, tagEnd]
  simp only [beq_self_eq_true, if_true]

theorem tagEnd_quoted {raw : List Char} (hq : isQuoteChar q) (hraw : q ∉ raw) (s : List Char) :
    tagEnd none (bytes (q :: (raw ++ q :: s))) = (tagEnd none (bytes s)).map (· + size (q :: (raw ++ [q]))) := by
  rw [tagEnd_open hq, bytes_append, tagEnd_inside hq hraw, tagEnd_close hq, Option.map_map, Option.map_map]
  congr 1
  funext k
  have := utf8Size_ascii (isQuoteChar_ascii hq).1
  simp only [Function.comp_apply, size_cons, size_append, size_nil, this]
  omega

theorem tagEnd_balanced (h : Balanced tag) (rest : List Char) : tagEnd none (bytes (tag ++ '>' :: rest)) = some (size tag) := by
  induction h with
  | nil => rfl
  | plain hq hc _ ih =>
    rw [List.cons_append, tagEnd_plain hq hc, ih, size_cons]
    simp [Nat.add_comm]
  | @quoted q raw tag hq hraw _ ih =>
    have happend : (q :: (raw ++ q :: tag)) ++ '>' :: rest = q :: (raw ++ q :: (tag ++ '>' :: rest)) := by simp
    rw [happend, tagEnd_quoted hq hraw, ih, Option.map_some]
    congr 1
    simp
    omega

theorem tagEnd_cases (k : Nat) (hk : s.length ≤ k) :
    (∃ tag rest, s = tag ++ '>' :: rest ∧ Balanced tag) ∨ tagEnd none (bytes s) = none := by
  induction k generalizing s with
  | zero =>
    obtain rfl := List.length_eq_zero_iff.mp (Nat.le_zero.mp hk)
    exact .inr rfl
  | succ k ih =>
    cases s with
    | nil => exact .inr rfl
    | cons c s =>
      rw [List.length_cons] at hk
      by_cases hq : isQuoteChar c
      · obtain ⟨raw, u, rfl, hraw, hu⟩ := span_cases (fun x => !(x == c)) s
        have hmem : c ∉ raw := fun hx => by simpa using hraw c hx
        cases u with
        | nil =>
          right
          rw [tagEnd_open hq, bytes_append, tagEnd_inside hq hmem]
          rfl
        | cons y u =>
          obtain rfl : y = c := by simpa using hu y rfl
          rw [List.length_append, List.length_cons] at hk
          rcases ih (s := u) (by omega) with ⟨tag, rest, rfl, htag⟩ | hnone
          · exact .inl ⟨y :: (raw ++ y :: tag), rest, by simp, .quoted hq hmem htag⟩
          · right
            rw [tagEnd_quoted hq hmem, hnone]
            rfl
      · rw [Bool.not_eq_true] at hq
        by_cases hc : c = '>'
        · exact .inl ⟨[], s, by rw [hc]; rfl, .nil⟩
        · rcases ih (s := s) (by omega) with ⟨tag, rest, rfl, htag⟩ | hnone
          · exact .inl ⟨c :: tag, rest, rfl, .plain hq hc htag⟩
          · right
            rw [tagEnd_plain hq hc, hnone]
            rfl

/-! ## One round -/

theorem findFrom_eq (h : At xml i rest) (needle : String) : findFrom xml i needle =
    match find needle.toList rest with
    | some p => .ok (i + p)
    | none => .error (.malformed s!"expected `{needle}`") := by
  unfold findFrom
  rw [cut_end h]
  rfl

theorem findFrom_free {needle : String} (h : At xml i (a ++ (needle.toList ++ b))) (hne : needle.toList ≠ []) (ha : Free needle.toList a) :
    findFrom xml i needle = .ok (i + size a) := by
  rw [findFrom_eq h, find_append hne ha]

theorem findFrom_none {needle : String} (h : At xml i rest) (hnone : find needle.toList rest = none) :
    ∃ m, findFrom xml i needle = .error (.malformed m) := by
  rw [findFrom_eq h, hnone]
  exact ⟨_, rfl⟩

/-- The name and attributes in a tag, without the slash of a self-closing one. -/
def innerOf (tag : List Char) : List Char := (stripSlash (trim tag)).1

/-- A text that begins no comment, declaration or end tag. -/
def Opens (s : List Char) : Prop := s.head? ≠ some '!' ∧ s.head? ≠ some '?' ∧ s.head? ≠ some '/'

/-- What is read in a round. -/
inductive TokenStep : List Char → List Char → Prop
  | run {r rest : List Char} : r ≠ [] → '<' ∉ r → (∀ c ∈ rest.head?, c = '<') → TokenStep (r ++ rest) rest
  | comment {a rest : List Char} : Free "-->".toList a → TokenStep ("<!--".toList ++ (a ++ ("-->".toList ++ rest))) rest
  | cdata {a rest : List Char} : Free "]]>".toList a → TokenStep ("<![CDATA[".toList ++ (a ++ ("]]>".toList ++ rest))) rest
  | declaration {c : Char} {a rest : List Char} : c = '!' ∨ c = '?' → ¬ "<!--".toList <+: '<' :: c :: (a ++ '>' :: rest) →
      ¬ "<![CDATA[".toList <+: '<' :: c :: (a ++ '>' :: rest) → '>' ∉ a → TokenStep ('<' :: c :: (a ++ '>' :: rest)) rest
  | endTag {a rest : List Char} : '>' ∉ a → TokenStep ('<' :: '/' :: (a ++ '>' :: rest)) rest
  | startTag {tag rest : List Char} : Opens (tag ++ '>' :: rest) → Balanced tag → ReadsTag (innerOf tag) →
      TokenStep ('<' :: (tag ++ '>' :: rest)) rest

/-- A start tag with a stray character among its attributes. -/
def StrayStart (s : List Char) : Prop :=
  ∃ tag rest, s = '<' :: (tag ++ '>' :: rest) ∧ Opens (tag ++ '>' :: rest) ∧ Balanced tag ∧ StrayTag (innerOf tag)

theorem TokenStep.length_lt (h : TokenStep s rest) : rest.length < s.length := by
  cases h with
  | run hne =>
    have := List.length_pos_iff.mpr hne
    simp only [List.length_append]
    omega
  | comment | cdata => simp; omega
  | declaration | endTag | startTag => simp; omega

theorem tokenAt_run {r : List Char} (h : At xml i (r ++ rest)) (hne : r ≠ []) (hr : '<' ∉ r) (hrest : ∀ c ∈ rest.head?, c = '<') :
    ∃ j t, i < j ∧ At xml j rest ∧ unescape r = .ok t ∧
      tokenAt xml i = .ok (if (trim r).isEmpty then none else some (.text t), j) := by
  obtain ⟨t, ht⟩ := unescape_total r
  have hpos := size_pos hne
  have hlt : Uniform (fun b => !isByte '<' b) fun c => !(c == '<') := (Uniform.isByte (by decide)).not
  have hscan : scanWhile (fun b => !isByte '<' b) (bytes (r ++ rest)) = size r := by
    refine hlt.scanWhile_append (fun c hc => ?_) fun c hc => ?_
    · have : c ≠ '<' := fun heq => hr (heq ▸ hc)
      simpa using this
    · rw [hrest c hc]
      decide
  have hfirst : (r ++ rest).head?.any (· == '<') = false := by
    cases r with
    | nil => exact absurd rfl hne
    | cons c r =>
      have : c ≠ '<' := fun heq => hr (heq ▸ List.mem_cons_self)
      simpa using this
  refine ⟨i + size r, t, by omega, h.append, ht, ?_⟩
  unfold tokenAt
  rw [byte_at h (by decide), hfirst]
  unfold runAt
  dsimp only
  rw [h.drop, hscan, cut_append h]
  change (if (trim r).isEmpty then _ else unescape r >>= _) = _
  rw [ht]
  split <;> rfl

theorem tokenAt_markup (h : At xml i t) (ht : t.head? = some '<') : tokenAt xml i = markupAt xml t i := by
  unfold tokenAt
  rw [byte_at h (by decide), cut_end h, ht]
  rfl

theorem tokenAt_comment (h : At xml i ("<!--".toList ++ (a ++ ("-->".toList ++ rest)))) (ha : Free "-->".toList a) :
    ∃ j, i < j ∧ At xml j rest ∧ tokenAt xml i = .ok (none, j) := by
  have hat : At xml (i + 4) (a ++ ("-->".toList ++ rest)) := h.append
  refine ⟨i + 4 + size a + 3, by omega, hat.append.append, ?_⟩
  have hprefix : "<!--".toList <+: "<!--".toList ++ (a ++ ("-->".toList ++ rest)) := List.prefix_append _ _
  rw [tokenAt_markup h rfl]
  unfold markupAt
  rw [if_pos hprefix, findFrom_free hat (by decide) ha]
  rfl

theorem tokenAt_cdata (h : At xml i ("<![CDATA[".toList ++ (a ++ ("]]>".toList ++ rest)))) (ha : Free "]]>".toList a) :
    ∃ j, i < j ∧ At xml j rest ∧ tokenAt xml i = .ok (some (.text a), j) := by
  have hat : At xml (i + 9) (a ++ ("]]>".toList ++ rest)) := h.append
  refine ⟨i + 9 + size a + 3, by omega, hat.append.append, ?_⟩
  have hprefix : "<![CDATA[".toList <+: "<![CDATA[".toList ++ (a ++ ("]]>".toList ++ rest)) := List.prefix_append _ _
  have hcomment : ¬ "<!--".toList <+: "<![CDATA[".toList ++ (a ++ ("]]>".toList ++ rest)) := by
    simp [List.cons_prefix_cons]
  rw [tokenAt_markup h rfl]
  unfold markupAt
  rw [if_neg hcomment, if_pos hprefix, findFrom_free hat (by decide) ha]
  change (cut xml (i + 9) (i + 9 + size a) >>= _) = _
  rw [cut_append hat]
  rfl

theorem free_gt (h : '>' ∉ a) : Free ">".toList a := free_singleton h

theorem tokenAt_declaration (h : At xml i ('<' :: c :: (a ++ '>' :: rest))) (hc : c = '!' ∨ c = '?')
    (hcomment : ¬ "<!--".toList <+: '<' :: c :: (a ++ '>' :: rest)) (hcdata : ¬ "<![CDATA[".toList <+: '<' :: c :: (a ++ '>' :: rest))
    (ha : '>' ∉ a) : ∃ j, i < j ∧ At xml j rest ∧ tokenAt xml i = .ok (none, j) := by
  have hat : At xml (i + 2) (a ++ (">".toList ++ rest)) := by
    obtain rfl | rfl := hc
    · exact h.cons.cons
    · exact h.cons.cons
  refine ⟨i + 2 + size a + 1, by omega, hat.append.append, ?_⟩
  have hprefix : "<!".toList <+: '<' :: c :: (a ++ '>' :: rest) ∨ "<?".toList <+: '<' :: c :: (a ++ '>' :: rest) := by
    obtain rfl | rfl := hc
    · exact .inl (List.prefix_append "<!".toList _)
    · exact .inr (List.prefix_append "<?".toList _)
  rw [tokenAt_markup h rfl]
  unfold markupAt
  rw [if_neg hcomment, if_neg hcdata, if_pos hprefix, findFrom_free hat (by decide) (free_gt ha)]
  rfl

theorem tokenAt_endTag (h : At xml i ('<' :: '/' :: (a ++ '>' :: rest))) (ha : '>' ∉ a) :
    ∃ j, i < j ∧ At xml j rest ∧ tokenAt xml i = .ok (some (.endTag (trim a)), j) := by
  have hat : At xml (i + 2) (a ++ (">".toList ++ rest)) := h.cons.cons
  refine ⟨i + 2 + size a + 1, by omega, hat.append.append, ?_⟩
  have hprefix : "</".toList <+: '<' :: '/' :: (a ++ '>' :: rest) := List.prefix_append "</".toList _
  rw [tokenAt_markup h rfl]
  unfold markupAt
  rw [if_neg (by simp [List.cons_prefix_cons]), if_neg (by simp [List.cons_prefix_cons]), if_neg (by simp [List.cons_prefix_cons]),
    if_pos hprefix, findFrom_free hat (by decide) (free_gt ha)]
  change (cut xml (i + 2) (i + 2 + size a) >>= _) = _
  rw [cut_append hat]
  rfl

theorem Opens.markupAt (h : Opens rest) (xml : List Char) (i : Nat) : markupAt xml ('<' :: rest) i = startTagAt xml i := by
  have hpre (d : Char) (u : List Char) (hd : rest.head? ≠ some d) : ¬ '<' :: d :: u <+: '<' :: rest := by
    rintro ⟨v, hv⟩
    obtain rfl := (List.cons.inj hv).2
    exact hd rfl
  obtain ⟨hbang, hquestion, hslash⟩ := h
  have hcomment : ¬ "<!--".toList <+: '<' :: rest := hpre '!' _ hbang
  have hcdata : ¬ "<![CDATA[".toList <+: '<' :: rest := hpre '!' _ hbang
  have hdeclaration : ¬ ("<!".toList <+: '<' :: rest ∨ "<?".toList <+: '<' :: rest) := not_or.mpr ⟨hpre '!' _ hbang, hpre '?' _ hquestion⟩
  have hend : ¬ "</".toList <+: '<' :: rest := hpre '/' _ hslash
  unfold Xml.markupAt
  rw [if_neg hcomment, if_neg hcdata, if_neg hdeclaration, if_neg hend]

theorem startTagAt_eq (h : At xml i ('<' :: (tag ++ '>' :: rest))) (htag : Balanced tag) :
    ∃ j, i < j ∧ At xml j rest ∧ startTagAt xml i =
      (parseTag (innerOf tag)).map fun r => (some (.startTag r.1 r.2 (stripSlash (trim tag)).2), j) := by
  have hat : At xml (i + 1) (tag ++ (">".toList ++ rest)) := h.cons
  refine ⟨i + 1 + size tag + 1, by omega, hat.append.append, ?_⟩
  have hend : findTagEnd xml (i + 1) = .ok (i + 1 + size tag) := by
    unfold findTagEnd
    rw [hat.drop]
    have := tagEnd_balanced htag rest
    simp only [show tag ++ (">".toList ++ rest) = tag ++ '>' :: rest from rfl, this]
  unfold startTagAt
  rw [hend]
  change (cut xml (i + 1) (i + 1 + size tag) >>= _) = _
  rw [cut_append hat]
  change (parseTag (innerOf tag) >>= _) = _
  cases parseTag (innerOf tag) <;> rfl

theorem tokenAt_step (h : At xml i t) (hstep : TokenStep t rest) : ∃ x j, tokenAt xml i = .ok (x, j) ∧ i < j ∧ At xml j rest := by
  cases hstep with
  | run hne hr hrest =>
    obtain ⟨j, u, hij, hj, -, heq⟩ := tokenAt_run h hne hr hrest
    exact ⟨_, j, heq, hij, hj⟩
  | comment ha =>
    obtain ⟨j, hij, hj, heq⟩ := tokenAt_comment h ha
    exact ⟨_, j, heq, hij, hj⟩
  | cdata ha =>
    obtain ⟨j, hij, hj, heq⟩ := tokenAt_cdata h ha
    exact ⟨_, j, heq, hij, hj⟩
  | declaration hc hcomment hcdata ha =>
    obtain ⟨j, hij, hj, heq⟩ := tokenAt_declaration h hc hcomment hcdata ha
    exact ⟨_, j, heq, hij, hj⟩
  | endTag ha =>
    obtain ⟨j, hij, hj, heq⟩ := tokenAt_endTag h ha
    exact ⟨_, j, heq, hij, hj⟩
  | startTag hopens htag hreads =>
    obtain ⟨j, hij, hj, heq⟩ := startTagAt_eq h htag
    obtain ⟨r, hr⟩ := parseTag_reads hreads
    rw [hr] at heq
    exact ⟨_, j, by rw [tokenAt_markup h rfl, hopens.markupAt, heq]; rfl, hij, hj⟩

theorem reader_token : Reader tokenAt TokenStep := ⟨tokenAt_step, TokenStep.length_lt⟩

theorem tokenAt_strayStart (h : At xml i t) (ht : StrayStart t) : tokenAt xml i = .error .panicked := by
  obtain ⟨tag, rest, rfl, hopens, htag, hstray⟩ := ht
  obtain ⟨j, -, -, heq⟩ := startTagAt_eq h htag
  rw [tokenAt_markup h rfl, hopens.markupAt, heq, parseTag_stray hstray]
  rfl

theorem findFrom_cases (needle : String) (hne : needle.toList ≠ []) (u : List Char) :
    (∃ a b, u = a ++ (needle.toList ++ b) ∧ Free needle.toList a) ∨
      ∀ xml i, At xml i u → ∃ m, findFrom xml i needle = .error (.malformed m) := by
  rcases find_cases hne u with h | hnone
  · exact .inl h
  · exact .inr fun xml i hu => findFrom_none hu hnone

theorem not_mem_of_free (h : Free ">".toList a) : '>' ∉ a := by
  intro hmem
  obtain ⟨k, hk, heq⟩ := List.getElem_of_mem hmem
  refine h k hk ?_
  rw [List.drop_append_of_le_length hk.le, List.drop_eq_getElem_cons hk, heq]
  exact List.prefix_append ">".toList _

/-- What begins with `<!`, `<?` or `</` ends at the next `>`. -/
theorem findFrom_gt_cases (u : List Char) :
    (∃ a b, u = a ++ '>' :: b ∧ '>' ∉ a) ∨ ∀ xml i, At xml i u → ∃ m, findFrom xml i ">" = .error (.malformed m) := by
  rcases findFrom_cases ">" (by decide) u with ⟨a, b, rfl, ha⟩ | h
  · exact .inl ⟨a, b, rfl, not_mem_of_free ha⟩
  · exact .inr h

theorem comment_cases (u : List Char) : (∃ rest, TokenStep ("<!--".toList ++ u) rest) ∨
    ∀ xml i, At xml i ("<!--".toList ++ u) → ∃ e, Malformed e ∧ tokenAt xml i = .error e := by
  rcases findFrom_cases "-->" (by decide) u with ⟨a, rest, rfl, ha⟩ | hnone
  · exact .inl ⟨rest, .comment ha⟩
  · refine .inr fun xml i h => ?_
    have hat : At xml (i + 4) u := h.append
    obtain ⟨m, hm⟩ := hnone xml _ hat
    have hprefix : "<!--".toList <+: "<!--".toList ++ u := List.prefix_append _ _
    refine ⟨_, ⟨m, rfl⟩, ?_⟩
    rw [tokenAt_markup h rfl]
    unfold markupAt
    rw [if_pos hprefix, hm]
    rfl

theorem cdata_cases (u : List Char) : (∃ rest, TokenStep ("<![CDATA[".toList ++ u) rest) ∨
    ∀ xml i, At xml i ("<![CDATA[".toList ++ u) → ∃ e, Malformed e ∧ tokenAt xml i = .error e := by
  rcases findFrom_cases "]]>" (by decide) u with ⟨a, rest, rfl, ha⟩ | hnone
  · exact .inl ⟨rest, .cdata ha⟩
  · refine .inr fun xml i h => ?_
    have hat : At xml (i + 9) u := h.append
    obtain ⟨m, hm⟩ := hnone xml _ hat
    have hprefix : "<![CDATA[".toList <+: "<![CDATA[".toList ++ u := List.prefix_append _ _
    have hcomment : ¬ "<!--".toList <+: "<![CDATA[".toList ++ u := by simp [List.cons_prefix_cons]
    refine ⟨_, ⟨m, rfl⟩, ?_⟩
    rw [tokenAt_markup h rfl]
    unfold markupAt
    rw [if_neg hcomment, if_pos hprefix, hm]
    rfl

theorem declaration_cases (hc : c = '!' ∨ c = '?') (hcomment : ¬ "<!--".toList <+: '<' :: c :: t)
    (hcdata : ¬ "<![CDATA[".toList <+: '<' :: c :: t) : (∃ rest, TokenStep ('<' :: c :: t) rest) ∨
      ∀ xml i, At xml i ('<' :: c :: t) → ∃ e, Malformed e ∧ tokenAt xml i = .error e := by
  rcases findFrom_gt_cases t with ⟨a, rest, rfl, ha⟩ | hnone
  · exact .inl ⟨rest, .declaration hc hcomment hcdata ha⟩
  · refine .inr fun xml i h => ?_
    have hprefix : "<!".toList <+: '<' :: c :: t ∨ "<?".toList <+: '<' :: c :: t := by
      obtain rfl | rfl := hc
      · exact .inl (List.prefix_append "<!".toList _)
      · exact .inr (List.prefix_append "<?".toList _)
    have hat : At xml (i + 2) t := by
      obtain rfl | rfl := hc
      · exact h.cons.cons
      · exact h.cons.cons
    obtain ⟨m, hm⟩ := hnone xml _ hat
    refine ⟨_, ⟨m, rfl⟩, ?_⟩
    rw [tokenAt_markup h rfl]
    unfold markupAt
    rw [if_neg hcomment, if_neg hcdata, if_pos hprefix, hm]
    rfl

theorem endTag_cases (u : List Char) : (∃ rest, TokenStep ('<' :: '/' :: u) rest) ∨
    ∀ xml i, At xml i ('<' :: '/' :: u) → ∃ e, Malformed e ∧ tokenAt xml i = .error e := by
  rcases findFrom_gt_cases u with ⟨a, rest, rfl, ha⟩ | hnone
  · exact .inl ⟨rest, .endTag ha⟩
  · refine .inr fun xml i h => ?_
    have hat : At xml (i + 2) u := h.cons.cons
    obtain ⟨m, hm⟩ := hnone xml _ hat
    have hprefix : "</".toList <+: '<' :: '/' :: u := List.prefix_append "</".toList _
    refine ⟨_, ⟨m, rfl⟩, ?_⟩
    rw [tokenAt_markup h rfl]
    unfold markupAt
    rw [if_neg (by simp [List.cons_prefix_cons]), if_neg (by simp [List.cons_prefix_cons]), if_neg (by simp [List.cons_prefix_cons]),
      if_pos hprefix, hm]
    rfl

theorem startTag_cases (hopens : Opens t) : (∃ rest, TokenStep ('<' :: t) rest) ∨ StrayStart ('<' :: t) ∨
    ∀ xml i, At xml i ('<' :: t) → ∃ e, Malformed e ∧ tokenAt xml i = .error e := by
  rcases tagEnd_cases _ (le_refl t.length) with ⟨tag, rest, rfl, htag⟩ | hnone
  · rcases parseTag_cases (innerOf tag) with h | h | ⟨e, he, h⟩
    · exact .inl ⟨rest, .startTag hopens htag h⟩
    · exact .inr (.inl ⟨tag, rest, rfl, hopens, htag, h⟩)
    · refine .inr (.inr fun xml i hat => ?_)
      obtain ⟨j, -, -, heq⟩ := startTagAt_eq hat htag
      exact ⟨e, he, by rw [tokenAt_markup hat rfl, hopens.markupAt, heq, h]; rfl⟩
  · refine .inr (.inr fun xml i hat => ?_)
    have htail : At xml (i + 1) t := hat.cons
    refine ⟨.malformed "unterminated tag", ⟨_, rfl⟩, ?_⟩
    rw [tokenAt_markup hat rfl, hopens.markupAt]
    unfold startTagAt findTagEnd
    rw [htail.drop, hnone]
    rfl

/-- What a round meets. -/
theorem tokenAt_cases (ht : t ≠ []) :
    (∃ rest, TokenStep t rest) ∨ StrayStart t ∨ ∀ xml i, At xml i t → ∃ e, Malformed e ∧ tokenAt xml i = .error e := by
  have hof {t : List Char} (h : (∃ rest, TokenStep t rest) ∨ ∀ xml i, At xml i t → ∃ e, Malformed e ∧ tokenAt xml i = .error e) :
      (∃ rest, TokenStep t rest) ∨ StrayStart t ∨ ∀ xml i, At xml i t → ∃ e, Malformed e ∧ tokenAt xml i = .error e :=
    h.imp_right .inr
  obtain ⟨r, rest, rfl, hr, hrest⟩ := span_cases (fun c => !(c == '<')) t
  by_cases hne : r = []
  · subst hne
    cases rest with
    | nil => exact absurd rfl ht
    | cons x u =>
      obtain rfl : x = '<' := by simpa using hrest x rfl
      rw [List.nil_append]
      by_cases hcomment : "<!--".toList <+: '<' :: u
      · obtain ⟨v, hv⟩ := hcomment
        exact hv ▸ hof (comment_cases v)
      · by_cases hcdata : "<![CDATA[".toList <+: '<' :: u
        · obtain ⟨v, hv⟩ := hcdata
          exact hv ▸ hof (cdata_cases v)
        · by_cases hopens : Opens u
          · exact startTag_cases hopens
          · have hhead : u.head? = some '!' ∨ u.head? = some '?' ∨ u.head? = some '/' := by
              by_contra hnone
              obtain ⟨hbang, hrest⟩ := not_or.mp hnone
              exact hopens ⟨hbang, not_or.mp hrest⟩
            cases u with
            | nil => simp at hhead
            | cons y u =>
              simp only [List.head?_cons, Option.some.injEq] at hhead
              rcases hhead with rfl | rfl | rfl
              · exact hof (declaration_cases (.inl rfl) hcomment hcdata)
              · exact hof (declaration_cases (.inr rfl) hcomment hcdata)
              · exact hof (endTag_cases u)
  · refine .inl ⟨rest, .run hne (fun hmem => by simpa using hr _ hmem) fun x hx => ?_⟩
    simpa using hrest x hx

/-! ## A text -/

/-- The scan of the text comes to a start tag with a stray character among its attributes. -/
def Strays (xml : List Char) : Prop := ∃ t, ReflTransGen TokenStep xml t ∧ StrayStart t

theorem tokenize_of_loops {r : Scan (List Token)} (h : LoopsFrom tokenAt .endless xml 0 r) : tokenize xml = r := h.result

theorem tokenize_strays (h : Strays xml) : tokenize xml = .error .panicked := by
  obtain ⟨t, hsteps, ht⟩ := h
  obtain ⟨j, xs, hj, hloop⟩ := reader_token.steps (At.start xml) hsteps
  have hne : t ≠ [] := by
    obtain ⟨tag, rest, rfl, -⟩ := ht
    exact List.cons_ne_nil _ _
  exact tokenize_of_loops (hloop _ (.fault (LoopsFrom.lt hj hne) (tokenAt_strayStart hj ht)))

theorem tokenize_cases (xml : List Char) :
    (∃ ts, tokenize xml = .ok ts) ∨ Strays xml ∨ ∃ e, Malformed e ∧ tokenize xml = .error e := by
  have hcases (t : List Char) (ht : t ≠ []) : (∃ rest, TokenStep t rest) ∨ t = [] ∨ StrayStart t ∨
      ∀ s i, At s i t → ∃ e, Malformed e ∧ tokenAt s i = .error e :=
    (tokenAt_cases ht).imp_right .inr
  rcases @Reader.cases _ _ _ _ (· = []) StrayStart Malformed .endless reader_token rfl hcases xml with ⟨t, hsteps, rfl⟩ | h | h
  · obtain ⟨j, xs, hj, hloop⟩ := reader_token.steps (At.start xml) hsteps
    exact .inl ⟨_, tokenize_of_loops (hloop _ (.done hj))⟩
  · exact .inr (.inl h)
  · obtain ⟨e, he, hloops⟩ := h xml 0 (At.start xml)
    exact .inr (.inr ⟨e, he, tokenize_of_loops hloops⟩)

end NanoBpm.Xml
