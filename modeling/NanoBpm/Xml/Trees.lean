import NanoBpm.Xml.Writing

/-!
# Trees and their texts

The ways of writing a tree of elements as XML, each of which `parse_tree` reads back to that tree, and the texts on which the scan
panics.
-/

namespace NanoBpm.Xml

open Utf8 Relation

variable {s t xml rest doc tail : List Char} {i j k : Nat} {ts us : List Token} {es : List Element} {e top : Element}
  {stack : List Element}

/-- The ways of writing elements and a text among them: a run of characters that is not blank, a `CDATA` section or an element, with
comments, processing instructions and blank runs between these. -/
inductive Content : List Char → List Element → List Char → Prop
  | nil : Content [] [] []
  | text {raw s rest t : List Char} {es : List Element} : trim raw ≠ [] → Escapes (· ≠ '<') raw s → (∀ c ∈ rest.head?, c = '<') →
      Content rest es t → Content (raw ++ rest) es (s ++ t)
  | blank {raw rest t : List Char} {es : List Element} : raw ≠ [] → trim raw = [] → (∀ c ∈ rest.head?, c = '<') →
      Content rest es t → Content (raw ++ rest) es t
  | cdata {s rest t : List Char} {es : List Element} : ¬ "]]>".toList <:+: s → Content rest es t →
      Content ("<![CDATA[".toList ++ (s ++ ("]]>".toList ++ rest))) es (s ++ t)
  | comment {s rest t : List Char} {es : List Element} : ¬ "-->".toList <:+: s → Content rest es t →
      Content ("<!--".toList ++ (s ++ ("-->".toList ++ rest))) es t
  | instruction {s rest t : List Char} {es : List Element} : '>' ∉ s → Content rest es t → Content ('<' :: '?' :: (s ++ '>' :: rest)) es t
  | closed {name as ws rest t : List Char} {attrs : List (List Char × List Char)} {es : List Element} : IsName name →
      WritesAttrs as attrs → Spaces ws → Content rest es t →
      Content ('<' :: (name ++ (as ++ (ws ++ '/' :: '>' :: rest)))) (.mk name attrs [] [] :: es) t
  | element {name as ws ws' body text rest t : List Char} {attrs : List (List Char × List Char)} {children es : List Element} : IsName name →
      WritesAttrs as attrs → Spaces ws → Content body children text → Spaces ws' → Content rest es t →
      Content ('<' :: (name ++ (as ++ (ws ++ '>' :: (body ++ '<' :: '/' :: (name ++ (ws' ++ '>' :: rest)))))))
        (.mk name attrs children text :: es) t

/-- The ways of writing a document with its element. -/
def Writes (doc : List Char) (e : Element) : Prop := Content doc [e] []

/-! ## The tokens of a text -/

/-- The loop comes from an offset to another with these tokens. -/
def ReadsTokens (xml : List Char) (i j : Nat) (ts : List Token) : Prop :=
  ∀ r, LoopsFrom tokenAt .endless xml j r → LoopsFrom tokenAt .endless xml i (r.map (ts ++ ·))

theorem ReadsTokens.refl (xml : List Char) (i : Nat) : ReadsTokens xml i i [] := fun r hr => by
  cases r <;> exact hr

theorem ReadsTokens.trans (h : ReadsTokens xml i j ts) (h' : ReadsTokens xml j k us) : ReadsTokens xml i k (ts ++ us) := fun r hr => by
  have hboth := h _ (h' r hr)
  cases r with
  | error => exact hboth
  | ok vs =>
    have happend : (Except.ok (ts ++ (us ++ vs)) : Scan _) = (Except.ok vs).map (ts ++ us ++ ·) := by
      rw [← List.append_assoc]
      rfl
    exact happend ▸ hboth

theorem ReadsTokens.round {x : Option Token} (h : At xml i t) (ht : t ≠ []) (hij : i < j) (heq : tokenAt xml i = .ok (x, j)) :
    ReadsTokens xml i j x.toList := fun _ hr => .step (LoopsFrom.lt h ht) heq hij hr

namespace Element

/-- An open element with more children and text. -/
def extend : Element → List Element → List Char → Element
  | mk name attrs children text, es, t => mk name attrs (children ++ es) (text ++ t)

@[simp]
theorem extend_nil (top : Element) : top.extend [] [] = top := by
  cases top
  simp [extend]

theorem extend_extend (top : Element) (es fs : List Element) (s t : List Char) :
    (top.extend es s).extend fs t = top.extend (es ++ fs) (s ++ t) := by
  cases top
  simp [extend]

theorem pushChild_eq (top e : Element) : top.pushChild e = top.extend [e] [] := by
  cases top
  simp [extend, pushChild]

theorem pushText_eq (top : Element) (t : List Char) : top.pushText t = top.extend [] t := by
  cases top
  simp [extend, pushText]

end Element

/-- Tokens that add elements and a text to the open element. -/
def Adds (ts : List Token) (es : List Element) (t : List Char) : Prop :=
  ∀ top stack, ts.foldlM place (top :: stack) = .ok (top.extend es t :: stack)

theorem Adds.nil : Adds [] [] [] := fun top stack => by
  rw [top.extend_nil]
  rfl

theorem Adds.append {fs : List Element} (h : Adds ts es s) (h' : Adds us fs t) : Adds (ts ++ us) (es ++ fs) (s ++ t) := fun top stack => by
  rw [List.foldlM_append, h top stack]
  change us.foldlM place (top.extend es s :: stack) = _
  rw [h', Element.extend_extend]

theorem adds_text (t : List Char) : Adds [.text t] [] t := fun top stack => by
  rw [← Element.pushText_eq]
  rfl

theorem adds_closed (name : List Char) (attrs : List (List Char × List Char)) :
    Adds [.startTag name attrs true] [.mk name attrs [] []] [] := fun top stack => by
  rw [← Element.pushChild_eq]
  rfl

theorem Adds.element {name name' : List Char} {attrs : List (List Char × List Char)} (h : Adds ts es t) :
    Adds (.startTag name attrs false :: (ts ++ [.endTag name'])) [.mk name attrs es t] [] := fun top stack => by
  have hbody := h (.mk name attrs [] []) (top :: stack)
  rw [List.foldlM_cons]
  change (ts ++ [Token.endTag name']).foldlM place (.mk name attrs [] [] :: top :: stack) = _
  rw [List.foldlM_append, hbody, ← Element.pushChild_eq]
  rfl

/-! ## Reading a tree back -/

theorem Content.head_tail {c : Char} (hrest : ∀ c ∈ rest.head?, c = '<') (htail : ∀ c ∈ tail.head?, c = '<') (hc : c ∈ (rest ++ tail).head?) :
    c = '<' := by
  cases rest with
  | nil => exact htail c hc
  | cons x rest => exact hrest c hc

/-- What is written is read to its end, and its tokens add what it stands for. -/
theorem Content.reads (h : Content doc es t) : ∃ ts, Adds ts es t ∧
    ∀ xml i tail, At xml i (doc ++ tail) → (∀ c ∈ tail.head?, c = '<') → ∃ j, At xml j tail ∧ ReadsTokens xml i j ts := by
  induction h with
  | nil => exact ⟨[], .nil, fun xml i tail hat _ => ⟨i, hat, .refl xml i⟩⟩
  | @text raw s rest t es htrim hraw hrest _ ih =>
    obtain ⟨ts, hadds, hreads⟩ := ih
    refine ⟨.text s :: ts, (adds_text s).append hadds, fun xml i tail hat htail => ?_⟩
    have hne : raw ≠ [] := by
      rintro rfl
      exact htrim rfl
    rw [List.append_assoc] at hat
    obtain ⟨j, u, hij, hj, hu, heq⟩ := tokenAt_run hat hne (lt_not_mem hraw) fun c hc => head_tail hrest htail hc
    rw [unescape_escapes hraw] at hu
    obtain rfl := Except.ok.inj hu
    rw [List.isEmpty_eq_false_iff.mpr htrim, if_neg Bool.false_ne_true] at heq
    obtain ⟨k, hk, hrounds⟩ := hreads xml j tail hj htail
    exact ⟨k, hk, (ReadsTokens.round hat (by simp [hne]) hij heq).trans hrounds⟩
  | @blank raw rest t es hne htrim hrest _ ih =>
    obtain ⟨ts, hadds, hreads⟩ := ih
    refine ⟨ts, hadds, fun xml i tail hat htail => ?_⟩
    have hlt : '<' ∉ raw := fun hmem => absurd (trim_eq_nil.mp htrim _ hmem) (by decide)
    rw [List.append_assoc] at hat
    obtain ⟨j, u, hij, hj, -, heq⟩ := tokenAt_run hat hne hlt fun c hc => head_tail hrest htail hc
    rw [htrim] at heq
    obtain ⟨k, hk, hrounds⟩ := hreads xml j tail hj htail
    exact ⟨k, hk, (ReadsTokens.round hat (by simp [hne]) hij heq).trans hrounds⟩
  | @cdata s rest t es hs _ ih =>
    obtain ⟨ts, hadds, hreads⟩ := ih
    refine ⟨.text s :: ts, (adds_text s).append hadds, fun xml i tail hat htail => ?_⟩
    rw [List.append_assoc, List.append_assoc, List.append_assoc] at hat
    obtain ⟨j, hij, hj, heq⟩ := tokenAt_cdata hat (free_of_no_occurrence (by decide) hs)
    obtain ⟨k, hk, hrounds⟩ := hreads xml j tail hj htail
    exact ⟨k, hk, (ReadsTokens.round hat (by simp) hij heq).trans hrounds⟩
  | @comment s rest t es hs _ ih =>
    obtain ⟨ts, hadds, hreads⟩ := ih
    refine ⟨ts, hadds, fun xml i tail hat htail => ?_⟩
    rw [List.append_assoc, List.append_assoc, List.append_assoc] at hat
    obtain ⟨j, hij, hj, heq⟩ := tokenAt_comment hat (free_of_no_occurrence (by decide) hs)
    obtain ⟨k, hk, hrounds⟩ := hreads xml j tail hj htail
    exact ⟨k, hk, (ReadsTokens.round hat (by simp) hij heq).trans hrounds⟩
  | @instruction s rest t es hs _ ih =>
    obtain ⟨ts, hadds, hreads⟩ := ih
    refine ⟨ts, hadds, fun xml i tail hat htail => ?_⟩
    have happend : '<' :: '?' :: (s ++ '>' :: rest) ++ tail = '<' :: '?' :: (s ++ '>' :: (rest ++ tail)) := by simp
    rw [happend] at hat
    obtain ⟨j, hij, hj, heq⟩ := tokenAt_declaration hat (.inr rfl) (by simp [List.cons_prefix_cons]) (by simp [List.cons_prefix_cons]) hs
    obtain ⟨k, hk, hrounds⟩ := hreads xml j tail hj htail
    exact ⟨k, hk, (ReadsTokens.round hat (List.cons_ne_nil _ _) hij heq).trans hrounds⟩
  | @closed name as ws rest t attrs es hname hattrs hws _ ih =>
    obtain ⟨ts, hadds, hreads⟩ := ih
    refine ⟨.startTag name attrs true :: ts, (adds_closed name attrs).append hadds, fun xml i tail hat htail => ?_⟩
    have happend : '<' :: (name ++ (as ++ (ws ++ '/' :: '>' :: rest))) ++ tail =
        '<' :: (name ++ (as ++ (ws ++ '/' :: '>' :: (rest ++ tail)))) := by simp
    rw [happend] at hat
    obtain ⟨j, heq, hij, hj⟩ := tokenAt_closed hname hattrs hws hat
    obtain ⟨k, hk, hrounds⟩ := hreads xml j tail hj htail
    exact ⟨k, hk, (ReadsTokens.round hat (List.cons_ne_nil _ _) hij heq).trans hrounds⟩
  | @element name as ws ws' body text rest t attrs children es hname hattrs hws _ hws' _ ihbody ihrest =>
    obtain ⟨ts, hadds, hreads⟩ := ihbody
    obtain ⟨us, hadds', hreads'⟩ := ihrest
    refine ⟨.startTag name attrs false :: (ts ++ [.endTag (trim (name ++ ws'))]) ++ us, hadds.element.append hadds',
      fun xml i tail hat htail => ?_⟩
    have happend : '<' :: (name ++ (as ++ (ws ++ '>' :: (body ++ '<' :: '/' :: (name ++ (ws' ++ '>' :: rest)))))) ++ tail =
        '<' :: (name ++ (as ++ (ws ++ '>' :: (body ++ '<' :: '/' :: ((name ++ ws') ++ '>' :: (rest ++ tail)))))) := by simp
    rw [happend] at hat
    obtain ⟨j, heq, hij, hj⟩ := tokenAt_open hname hattrs hws hat
    have hlt : ∀ c ∈ ('<' :: '/' :: ((name ++ ws') ++ '>' :: (rest ++ tail))).head?, c = '<' := by
      intro c hc
      exact (Option.some.inj hc).symm
    obtain ⟨k, hk, hrounds⟩ := hreads xml j _ hj hlt
    have hgt : '>' ∉ name ++ ws' := by
      rw [List.mem_append, not_or]
      exact ⟨fun hmem => (hname.2.1 _ hmem).plain.2.1 rfl, fun hmem => absurd (hws' _ hmem) (by decide)⟩
    obtain ⟨l, hkl, hl, heq'⟩ := tokenAt_endTag hk hgt
    obtain ⟨m, hm, hrounds'⟩ := hreads' xml l tail hl htail
    have hopen := ReadsTokens.round hat (List.cons_ne_nil _ _) hij heq
    have hclose := ReadsTokens.round hk (List.cons_ne_nil _ _) hkl heq'
    exact ⟨m, hm, (hopen.trans (hrounds.trans hclose)).trans hrounds'⟩

/-- Every way of writing a tree is read back to it. -/
theorem parseTree_writes (h : Writes doc e) : parseTree doc = .ok e := by
  obtain ⟨ts, hadds, hreads⟩ := Content.reads h
  obtain ⟨j, hj, hrounds⟩ := hreads doc 0 [] (by rw [List.append_nil]; exact At.start doc) (by simp)
  have htokens : tokenize doc = .ok ts := by
    rw [tokenize_of_loops (hrounds _ (.done hj))]
    simp [Except.map]
  have hstack := hadds (.mk [] [] [] []) []
  unfold parseTree
  rw [htokens]
  change (ts.foldlM place [.mk [] [] [] []] >>= finish) = _
  rw [hstack]
  rfl

example : Writes "<a b='&lt;'/>".toList (.mk ['a'] [(['b'], ['<'])] [] []) := by
  have hname (c : Char) (h : NameChar c) (hbang : c ≠ '!') (hquestion : c ≠ '?') : IsName [c] :=
    ⟨by simp, by simpa using h, by simpa using hbang, by simpa using hquestion⟩
  have hnil : Spaces [] := fun _ h => absurd h List.not_mem_nil
  have hspace : Spaces [' '] := fun c hc => List.mem_singleton.mp hc ▸ rfl
  have hattrs : WritesAttrs " b='&lt;'".toList [(['b'], ['<'])] :=
    .cons (by simp) hspace (hname 'b' ⟨rfl, by decide⟩ (by decide) (by decide)) hnil hnil rfl (.reference .lt .nil) .nil
  exact .closed (hname 'a' ⟨rfl, by decide⟩ (by decide) (by decide)) hattrs hnil .nil

/-! ## Without a panic -/

theorem place_nonempty (tok : Token) (hne : stack ≠ []) :
    (∃ stack', stack' ≠ [] ∧ place stack tok = .ok stack') ∨ ∃ f, Malformed f ∧ place stack tok = .error f := by
  cases stack with
  | nil => exact absurd rfl hne
  | cons top stack =>
    cases tok with
    | startTag name attrs selfClosing => cases selfClosing <;> exact .inl ⟨_, List.cons_ne_nil _ _, rfl⟩
    | endTag name =>
      cases stack with
      | nil => exact .inr ⟨_, ⟨_, rfl⟩, rfl⟩
      | cons _ _ => exact .inl ⟨_, List.cons_ne_nil _ _, rfl⟩
    | text t => exact .inl ⟨_, List.cons_ne_nil _ _, rfl⟩

/-- Placing tokens never empties the stack. -/
theorem foldlM_place (ts : List Token) (hne : stack ≠ []) :
    (∃ stack', stack' ≠ [] ∧ ts.foldlM place stack = .ok stack') ∨ ∃ f, Malformed f ∧ ts.foldlM place stack = .error f := by
  induction ts generalizing stack with
  | nil => exact .inl ⟨stack, hne, rfl⟩
  | cons tok ts ih =>
    rw [List.foldlM_cons]
    rcases place_nonempty tok hne with ⟨stack', hne', heq⟩ | ⟨f, hf, heq⟩
    · rw [heq]
      exact ih hne'
    · exact .inr ⟨f, hf, by rw [heq]; rfl⟩

theorem finish_cases (stack : List Element) : (∃ e, finish stack = .ok e) ∨ ∃ f, Malformed f ∧ finish stack = .error f := by
  unfold finish
  split
  · exact .inr ⟨_, ⟨_, rfl⟩, rfl⟩
  · split
    · exact .inl ⟨_, rfl⟩
    · exact .inr ⟨_, ⟨_, rfl⟩, rfl⟩
    · exact .inr ⟨_, ⟨_, rfl⟩, rfl⟩
  · exact .inr ⟨_, ⟨_, rfl⟩, rfl⟩

/-- A value or an error that says what is malformed. -/
def Answers {α : Type} (r : Scan α) : Prop := (∃ a, r = .ok a) ∨ ∃ m, r = .error (.malformed m)

theorem tokenize_answers_iff (xml : List Char) : Answers (tokenize xml) ↔ ¬ Strays xml := by
  constructor
  · intro h hstrays
    rw [Answers, tokenize_strays hstrays] at h
    rcases h with ⟨_, h⟩ | ⟨_, h⟩ <;> cases h
  · intro hstrays
    rcases tokenize_cases xml with h | h | ⟨_, ⟨m, rfl⟩, h⟩
    · exact .inl h
    · exact absurd h hstrays
    · exact .inr ⟨m, h⟩

theorem parseTree_answers_iff (xml : List Char) : Answers (parseTree xml) ↔ ¬ Strays xml := by
  constructor
  · intro h hstrays
    rw [Answers, parseTree, tokenize_strays hstrays] at h
    rcases h with ⟨_, h⟩ | ⟨_, h⟩ <;> cases h
  · intro hstrays
    unfold parseTree
    rcases (tokenize_answers_iff xml).mpr hstrays with ⟨ts, hts⟩ | ⟨m, hm⟩
    · rw [hts]
      change Answers (ts.foldlM place [.mk [] [] [] []] >>= finish)
      rcases foldlM_place ts (List.cons_ne_nil (Element.mk [] [] [] []) []) with ⟨stack, -, hstack⟩ | ⟨_, ⟨m, rfl⟩, hm⟩
      · rw [hstack]
        rcases finish_cases stack with ⟨e, he⟩ | ⟨_, ⟨m, rfl⟩, hm⟩
        · exact .inl ⟨e, he⟩
        · exact .inr ⟨m, hm⟩
      · rw [hm]
        exact .inr ⟨m, rfl⟩
    · rw [hm]
      exact .inr ⟨m, rfl⟩

/-- Trees are read back from every way of writing them, `unescape` undoes every way of escaping, and a text is scanned to a value or an
error exactly when the scan comes to no stray character. -/
theorem scanner_right_iff (xml : List Char) :
    (∀ e, Writes xml e → parseTree xml = .ok e) ∧
      (∀ (plain : Char → Prop) (s : List Char), Escapes plain xml s → unescape xml = .ok s) ∧
      (Answers (tokenize xml) ∧ Answers (parseTree xml) ↔ ¬ Strays xml) := by
  refine ⟨fun _ => parseTree_writes, fun _ _ => unescape_escapes, ?_⟩
  rw [tokenize_answers_iff, parseTree_answers_iff, and_self_iff]

/-- After a no-break space, the first byte of an `é` is skipped. -/
theorem stray_panics : ¬ Answers (tokenize "<a b \u00a0 é>".toList) := by
  have hpanic : tokenize "<a b \u00a0 é>".toList = .error .panicked := by decide +kernel
  rw [hpanic]
  rintro (⟨_, h⟩ | ⟨_, h⟩) <;> cases h

end NanoBpm.Xml
