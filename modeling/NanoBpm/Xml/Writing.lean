import NanoBpm.Xml.Tokens

/-!
# Trees and their texts

The ways of writing a tree of elements as XML, each of which `parse_tree` reads back to that tree, and the texts on which the scan
panics.
-/

namespace NanoBpm.Xml

open Utf8 Relation

variable {s t xml rest a b tag name ws ws' raw value doc tail : List Char} {c d q : Char} {i j n : Nat}
  {attrs : List (List Char × List Char)} {es children : List Element}

/-! ## Tags as they are written -/

def NameChar (c : Char) : Prop := isWhiteSpace c = false ∧ c ∉ "<>&\"'=/".toList

/-- A name free of white space and markup. -/
def IsName (name : List Char) : Prop := name ≠ [] ∧ (∀ c ∈ name, NameChar c) ∧ name.head? ≠ some '!' ∧ name.head? ≠ some '?'

/-- The ways of writing attributes, each after some white space. -/
inductive WritesAttrs : List Char → List (List Char × List Char) → Prop
  | nil : WritesAttrs [] []
  | cons {ws name ws' ws'' raw value rest : List Char} {q : Char} {attrs : List (List Char × List Char)} : ws ≠ [] → Spaces ws → IsName name →
      Spaces ws' → Spaces ws'' → isQuoteChar q → Escapes (· ≠ q) raw value → WritesAttrs rest attrs →
      WritesAttrs (ws ++ (name ++ (ws' ++ '=' :: (ws'' ++ q :: (raw ++ q :: rest))))) ((name, value) :: attrs)

/-- Markup of a text is written as references only. -/
theorem Escapes.not_mem {d : Char} (hd : d ≠ '&' ∧ d ≠ ';' ∧ isEntityBodyChar d = false) (h : Escapes (· ≠ d) raw value) : d ∉ raw := by
  induction h with
  | nil => exact List.not_mem_nil
  | char _ hne _ ih =>
    rw [List.mem_cons, not_or]
    exact ⟨fun heq => hne heq.symm, ih⟩
  | reference href _ ih =>
    rw [List.mem_cons, List.mem_append, List.mem_cons]
    rintro (heq | hmem | heq | hmem)
    · exact hd.1 heq
    · have := href.body _ hmem
      rw [hd.2.2] at this
      cases this
    · exact hd.2.1 heq
    · exact ih hmem

theorem quote_not_mem (hq : isQuoteChar q) (h : Escapes (· ≠ q) raw value) : q ∉ raw := by
  refine h.not_mem ?_
  simp only [isQuoteChar, Bool.or_eq_true, beq_iff_eq] at hq
  obtain rfl | rfl := hq <;> decide

theorem lt_not_mem (h : Escapes (· ≠ '<') raw value) : '<' ∉ raw := h.not_mem (by decide)

theorem NameChar.plain (h : NameChar c) : isQuoteChar c = false ∧ c ≠ '>' ∧ c ≠ '/' ∧ isKeyChar c ∧ isAsciiSpace c = false := by
  obtain ⟨hspace, hmem⟩ := h
  have hascii : isAsciiSpace c = false := by
    rw [← Bool.not_eq_true]
    intro hc
    rw [isWhiteSpace_of_ascii hc] at hspace
    cases hspace
  have hne {d : Char} (hd : d ∈ "<>&\"'=/".toList) : c ≠ d := fun heq => hmem (heq ▸ hd)
  refine ⟨?_, hne (by decide), hne (by decide), isKeyChar_iff.mpr ⟨hne (by decide), hascii⟩, hascii⟩
  simp [isQuoteChar, hne (d := '"') (by decide), hne (d := '\'') (by decide)]

theorem Balanced.append (ha : Balanced a) (hb : Balanced b) : Balanced (a ++ b) := by
  induction ha with
  | nil => exact hb
  | plain hq hc _ ih => exact .plain hq hc ih
  | @quoted q raw rest hq hraw _ ih =>
    have happend : q :: (raw ++ q :: rest) ++ b = q :: (raw ++ q :: (rest ++ b)) := by simp
    rw [happend]
    exact .quoted hq hraw ih

theorem balanced_plain (h : ∀ c ∈ s, isQuoteChar c = false ∧ c ≠ '>') : Balanced s := by
  induction s with
  | nil => exact .nil
  | cons c s ih =>
    have hc := h c List.mem_cons_self
    exact .plain hc.1 hc.2 (ih fun d hd => h d (List.mem_cons_of_mem _ hd))

theorem Spaces.balanced (h : Spaces ws) : Balanced ws := by
  refine balanced_plain fun c hc => ?_
  have hspace := h c hc
  simp only [isAsciiSpace, Bool.or_eq_true, beq_iff_eq] at hspace
  obtain (((rfl | rfl) | rfl) | rfl) | rfl := hspace <;> decide

theorem IsName.balanced (h : IsName name) : Balanced name := balanced_plain fun c hc => ⟨(h.2.1 c hc).plain.1, (h.2.1 c hc).plain.2.1⟩

theorem WritesAttrs.balanced (h : WritesAttrs s attrs) : Balanced s := by
  induction h with
  | nil => exact .nil
  | @cons ws name ws' ws'' raw value rest q attrs _ hws hname hws' hws'' hq hraw _ ih =>
    exact hws.balanced.append (hname.balanced.append (hws'.balanced.append (.plain (by decide) (by decide)
      (hws''.balanced.append (.quoted hq (quote_not_mem hq hraw) ih)))))

/-! ## Reading a tag back -/

theorem dropWhile_append_stop {P : Char → Bool} (ha : ∀ c ∈ a, P c) (hb : ∀ c ∈ b.head?, P c = false) : (a ++ b).dropWhile P = b := by
  rw [List.dropWhile_append_of_pos ha]
  cases b with
  | nil => rfl
  | cons c b => rw [List.dropWhile_cons_of_neg (by simp [hb c rfl])]

theorem trimStart_append (ha : ∀ c ∈ a, isWhiteSpace c) (hb : ∀ c ∈ b.head?, isWhiteSpace c = false) : trimStart (a ++ b) = b :=
  dropWhile_append_stop ha hb

theorem trimEnd_append (ha : ∀ c ∈ a.getLast?, isWhiteSpace c = false) (hb : ∀ c ∈ b, isWhiteSpace c) : trimEnd (a ++ b) = a := by
  rw [trimEnd, List.reverse_append, dropWhile_append_stop (by simpa using hb) (by simpa using ha), List.reverse_reverse]

theorem trim_append (hhead : ∀ c ∈ a.head?, isWhiteSpace c = false) (hlast : ∀ c ∈ a.getLast?, isWhiteSpace c = false)
    (hb : ∀ c ∈ b, isWhiteSpace c) (hne : a ≠ []) : trim (a ++ b) = a := by
  have hstart : trimStart (a ++ b) = a ++ b := by
    refine trimStart_append (a := []) (by simp) fun c hc => ?_
    cases a with
    | nil => exact absurd rfl hne
    | cons x a => exact hhead c hc
  rw [trim, hstart, trimEnd_append hlast hb]

theorem trim_self (hhead : ∀ c ∈ a.head?, isWhiteSpace c = false) (hlast : ∀ c ∈ a.getLast?, isWhiteSpace c = false) (hne : a ≠ []) :
    trim a = a := by
  have := trim_append hhead hlast (b := []) (by simp) hne
  rwa [List.append_nil] at this

theorem IsName.trim (h : IsName name) : trim name = name :=
  trim_self (fun c hc => (h.2.1 c (List.mem_of_head? hc)).1) (fun c hc => (h.2.1 c (List.mem_of_getLast? hc)).1) h.1

theorem IsName.key (h : IsName name) : Key name := fun c hc => (h.2.1 c hc).plain.2.2.2.1

/-- What attributes are written as ends in a quote, or there are none. -/
theorem WritesAttrs.getLast? (h : WritesAttrs s attrs) : s = [] ∨ ∃ q, isQuoteChar q ∧ s.getLast? = some q := by
  induction h with
  | nil => exact .inl rfl
  | @cons ws name ws' ws'' raw value rest q attrs _ _ _ _ _ hq _ _ ih =>
    right
    have happend : ws ++ (name ++ (ws' ++ '=' :: (ws'' ++ q :: (raw ++ q :: rest)))) =
        (ws ++ (name ++ (ws' ++ '=' :: (ws'' ++ q :: raw))) ++ [q]) ++ rest := by simp
    rcases ih with rfl | ⟨q', hq', hlast⟩
    · exact ⟨q, hq, by rw [happend, List.append_nil, List.getLast?_concat]⟩
    · exact ⟨q', hq', by rw [happend, List.getLast?_append, hlast]; rfl⟩

theorem WritesAttrs.stop (h : WritesAttrs s attrs) : ∀ c ∈ s.head?, isWhiteSpace c := by
  cases h with
  | nil => simp
  | @cons ws name ws' ws'' raw value rest q attrs hne hws _ _ _ _ _ _ =>
    intro c hc
    cases ws with
    | nil => exact absurd rfl hne
    | cons x ws =>
      obtain rfl := Option.some.inj hc
      exact isWhiteSpace_of_ascii (hws x List.mem_cons_self)

theorem IsName.head (h : IsName name) : ∃ c u, name = c :: u ∧ NameChar c ∧ c ≠ '!' ∧ c ≠ '?' := by
  obtain ⟨hne, hall, hbang, hquestion⟩ := h
  cases name with
  | nil => exact absurd rfl hne
  | cons c u => exact ⟨c, u, rfl, hall c List.mem_cons_self, by simpa using hbang, by simpa using hquestion⟩

/-- A name with attributes, without white space around them. -/
theorem trim_tag (hname : IsName name) (hattrs : WritesAttrs s attrs) (hb : ∀ c ∈ b, isWhiteSpace c) :
    trim (name ++ s ++ b) = name ++ s ∧ (name ++ s).getLast? ≠ some '/' ∧ ∀ c ∈ (name ++ s).getLast?, isWhiteSpace c = false := by
  have hlast : ∃ c, (name ++ s).getLast? = some c ∧ c ≠ '/' ∧ isWhiteSpace c = false := by
    rw [List.getLast?_append]
    rcases hattrs.getLast? with rfl | ⟨q, hq, hs⟩
    · obtain ⟨c, hc⟩ : ∃ c, name.getLast? = some c := ⟨_, List.getLast?_eq_some_getLast hname.1⟩
      have hplain := hname.2.1 c (List.mem_of_getLast? hc)
      exact ⟨c, hc, hplain.plain.2.2.1, hplain.1⟩
    · rw [hs]
      refine ⟨q, rfl, ?_⟩
      simp only [isQuoteChar, Bool.or_eq_true, beq_iff_eq] at hq
      obtain rfl | rfl := hq <;> decide
  obtain ⟨c, hc, hslash, hspace⟩ := hlast
  have hlast' : ∀ d ∈ (name ++ s).getLast?, isWhiteSpace d = false := by
    intro d hd
    rw [hc] at hd
    obtain rfl := Option.some.inj hd
    exact hspace
  refine ⟨trim_append ?_ hlast' hb (by simp [hname.1]), by rw [hc]; simpa using hslash, hlast'⟩
  obtain ⟨x, u, rfl, hx, -⟩ := hname.head
  intro d hd
  obtain rfl := Option.some.inj hd
  exact hx.1

theorem stripSlash_open (hname : IsName name) (hattrs : WritesAttrs s attrs) (hws : Spaces ws) :
    stripSlash (trim (name ++ (s ++ ws))) = (name ++ s, false) := by
  obtain ⟨htrim, hslash, -⟩ := trim_tag hname hattrs (b := ws) fun c hc => isWhiteSpace_of_ascii (hws c hc)
  rw [← List.append_assoc, htrim, stripSlash, if_neg hslash]

theorem stripSlash_closed (hname : IsName name) (hattrs : WritesAttrs s attrs) (hws : Spaces ws) :
    stripSlash (trim (name ++ (s ++ (ws ++ ['/'])))) = (name ++ s, true) := by
  have hb : ∀ c ∈ ws, isWhiteSpace c := fun c hc => isWhiteSpace_of_ascii (hws c hc)
  have happend : name ++ (s ++ (ws ++ ['/'])) = (name ++ s ++ ws) ++ ['/'] := by simp
  have hself : trim ((name ++ s ++ ws) ++ ['/']) = (name ++ s ++ ws) ++ ['/'] := by
    refine trim_self ?_ (by intro c hc; rw [List.getLast?_concat] at hc; obtain rfl := Option.some.inj hc; decide) (by simp)
    obtain ⟨x, u, rfl, hx, -⟩ := hname.head
    intro d hd
    obtain rfl := Option.some.inj hd
    exact hx.1
  rw [happend, hself, stripSlash, if_pos List.getLast?_concat, List.dropLast_concat,
    trimEnd_append (trim_tag hname hattrs hb).2.2 hb]

theorem nameOf_tag (hname : IsName name) (hattrs : WritesAttrs s attrs) : nameOf (name ++ s) = name := by
  have htrim := (trim_tag hname hattrs (b := []) (by simp)).1
  rw [List.append_nil] at htrim
  rw [nameOf, htrim, List.takeWhile_append_of_pos fun c hc => by simp [(hname.2.1 c hc).1]]
  cases s with
  | nil => simp
  | cons c s => rw [List.takeWhile_cons_of_neg (by simp [hattrs.stop c rfl]), List.append_nil]

theorem attrPart_tag (hname : IsName name) (hattrs : WritesAttrs s attrs) : attrPart (name ++ s) = trimStart s := by
  have htrim := (trim_tag hname hattrs (b := []) (by simp)).1
  rw [List.append_nil] at htrim
  rw [attrPart, htrim, dropWhile_append_stop (fun c hc => by simp [(hname.2.1 c hc).1]) fun c hc => by simp [hattrs.stop c hc]]

theorem WritesAttrs.trimStart (h : WritesAttrs s attrs) : trimStart s = s.dropWhile isAsciiSpace := by
  cases h with
  | nil => rfl
  | @cons ws name ws' ws'' raw value rest q attrs _ hws hname _ _ _ _ _ =>
    obtain ⟨c, u, rfl, hc, -⟩ := hname.head
    rw [dropWhile_append_stop hws (by intro d hd; obtain rfl := Option.some.inj hd; exact hc.plain.2.2.2.2),
      trimStart_append (fun c hc => isWhiteSpace_of_ascii (hws c hc)) (by intro d hd; obtain rfl := Option.some.inj hd; exact hc.1)]

/-- The loop reads the attributes that are written, after the white space before each. -/
theorem WritesAttrs.loops (h : WritesAttrs s attrs) (hat : At t i (s.dropWhile isAsciiSpace)) :
    LoopsFrom attrAt .endless t i (.ok attrs) := by
  induction h generalizing i with
  | nil => exact .done hat
  | @cons ws name ws' ws'' raw value rest q attrs hne hws hname hws' hws'' hq hraw _ ih =>
    obtain ⟨c, u, hcons, hc, -⟩ := hname.head
    have hdrop : (ws ++ (name ++ (ws' ++ '=' :: (ws'' ++ q :: (raw ++ q :: rest))))).dropWhile isAsciiSpace =
        name ++ (ws' ++ '=' :: (ws'' ++ q :: (raw ++ q :: rest))) := by
      refine dropWhile_append_stop hws fun d hd => ?_
      rw [hcons] at hd
      obtain rfl := Option.some.inj hd
      exact hc.plain.2.2.2.2
    rw [hdrop] at hat
    obtain ⟨ws₃, u, hsplit, hws₃, hu⟩ := span_cases isAsciiSpace rest
    have hrest : rest.dropWhile isAsciiSpace = u := hsplit ▸ dropWhile_append_stop hws₃ hu
    have hlt := LoopsFrom.lt hat (by simp [hname.1])
    rw [hsplit] at hat
    obtain ⟨j, hij, hj, heq⟩ := attrAt_valued hat hname.key hws' hws'' hq (quote_not_mem hq hraw) hws₃ hu (unescape_escapes hraw)
    rw [hname.trim, List.isEmpty_eq_false_iff.mpr hname.1, if_neg Bool.false_ne_true] at heq
    exact Loops.step hlt heq hij (ih (hrest ▸ hj))

theorem parseTag_written (hname : IsName name) (hattrs : WritesAttrs s attrs) : parseTag (name ++ s) = .ok (name, attrs) := by
  have hloops : LoopsFrom attrAt .endless (attrPart (name ++ s)) 0 (.ok attrs) := by
    rw [attrPart_tag hname hattrs, hattrs.trimStart]
    exact hattrs.loops (At.start _)
  rw [parseTag_eq, nameOf_tag hname hattrs, List.isEmpty_eq_false_iff.mpr hname.1, if_neg Bool.false_ne_true, hloops.result]
  rfl

theorem IsName.opens (h : IsName name) (rest : List Char) : Opens (name ++ rest) := by
  obtain ⟨c, u, rfl, hc, hbang, hquestion⟩ := h.head
  exact ⟨by simpa using hbang, by simpa using hquestion, by simpa using hc.plain.2.2.1⟩

theorem tokenAt_open (hname : IsName name) (hattrs : WritesAttrs s attrs) (hws : Spaces ws)
    (h : At xml i ('<' :: (name ++ (s ++ (ws ++ '>' :: rest))))) :
    ∃ j, tokenAt xml i = .ok (some (.startTag name attrs false), j) ∧ i < j ∧ At xml j rest := by
  have happend : name ++ (s ++ (ws ++ '>' :: rest)) = (name ++ (s ++ ws)) ++ '>' :: rest := by simp
  have hopens := hname.opens (s ++ (ws ++ '>' :: rest))
  rw [happend] at h hopens
  obtain ⟨j, hij, hj, heq⟩ := startTagAt_eq h (hname.balanced.append (hattrs.balanced.append hws.balanced))
  rw [innerOf, stripSlash_open hname hattrs hws, parseTag_written hname hattrs] at heq
  exact ⟨j, by rw [tokenAt_markup h rfl, hopens.markupAt, heq]; rfl, hij, hj⟩

theorem tokenAt_closed (hname : IsName name) (hattrs : WritesAttrs s attrs) (hws : Spaces ws)
    (h : At xml i ('<' :: (name ++ (s ++ (ws ++ '/' :: '>' :: rest))))) :
    ∃ j, tokenAt xml i = .ok (some (.startTag name attrs true), j) ∧ i < j ∧ At xml j rest := by
  have happend : name ++ (s ++ (ws ++ '/' :: '>' :: rest)) = (name ++ (s ++ (ws ++ ['/']))) ++ '>' :: rest := by simp
  have hopens := hname.opens (s ++ (ws ++ '/' :: '>' :: rest))
  rw [happend] at h hopens
  have hslash : Balanced ['/'] := .plain (by decide) (by decide) .nil
  obtain ⟨j, hij, hj, heq⟩ := startTagAt_eq h (hname.balanced.append (hattrs.balanced.append (hws.balanced.append hslash)))
  rw [innerOf, stripSlash_closed hname hattrs hws, parseTag_written hname hattrs] at heq
  exact ⟨j, by rw [tokenAt_markup h rfl, hopens.markupAt, heq]; rfl, hij, hj⟩

end NanoBpm.Xml
