import NanoBpm.Xml.Scanner
import Mathlib.Tactic.Common

/-!
# Entities

`unescape` returns a text for every text, and for one in which characters are written as references the characters that these
stand for.
-/

namespace NanoBpm.Xml

open Utf8 Radix

/-! ## Tests of bytes -/

def isAsciiSpace (c : Char) : Bool := c == ' ' || c == '\t' || c == '\n' || c == '\x0C' || c == '\r'

def isEntityBodyChar (c : Char) : Bool :=
  ((decide ('a' ≤ c) && decide (c ≤ 'z')) || (decide ('A' ≤ c) && decide (c ≤ 'Z')) || (decide ('0' ≤ c) && decide (c ≤ '9'))) ||
    c == '#'

def isQuoteChar (c : Char) : Bool := c == '"' || c == '\''

theorem uniform_space : Uniform isAsciiWhitespace isAsciiSpace :=
  ((((Uniform.isByte (by decide)).or (.isByte (by decide))).or (.isByte (by decide))).or (.isByte (by decide))).or (.isByte (by decide))

theorem uniform_quote : Uniform isQuote isQuoteChar := (Uniform.isByte (by decide)).or (.isByte (by decide))

theorem uniform_entityBody : Uniform isEntityBodyByte isEntityBodyChar :=
  (((Uniform.byteBetween (by decide) (by decide)).or (.byteBetween (by decide) (by decide))).or
    (.byteBetween (by decide) (by decide))).or (.isByte (by decide))

variable {s t xml rest a b : List Char} {c d : Char} {i j n : Nat}

theorem byte_at (h : At s i rest) (hd : d.toNat < 128) : (bytes s)[i]?.any (isByte d) = rest.head?.any (· == d) := by
  rw [h.getElem?, (Uniform.isByte hd).head]

theorem cut_append (h : At s i (a ++ b)) : cut s i (i + size a) = .ok a := by
  rw [cut, h.slice]

theorem cut_end (h : At s i rest) : cut s i (size s) = .ok rest := by
  rw [cut, h.slice_end]

/-! ## References -/

/-- What stands between `&` and `;` for a character. -/
inductive Reference : List Char → Char → Prop
  | lt : Reference "lt".toList '<'
  | gt : Reference "gt".toList '>'
  | quot : Reference "quot".toList '"'
  | apos : Reference "apos".toList '\''
  | amp : Reference "amp".toList '&'
  | decimal {ds : List Char} {c : Char} : ds ≠ [] → Numeral 10 ds c.toNat → isXmlChar c → Reference ('#' :: ds) c
  | hex {ds : List Char} {c : Char} : ds ≠ [] → Numeral 16 ds c.toNat → isXmlChar c → Reference ('#' :: 'x' :: ds) c

/-- The ways of writing a text, with the characters of `plain` themselves and any as references. -/
inductive Escapes (plain : Char → Prop) : List Char → List Char → Prop
  | nil : Escapes plain [] []
  | char {c : Char} {raw s : List Char} : c ≠ '&' → plain c → Escapes plain raw s → Escapes plain (c :: raw) (c :: s)
  | reference {e raw s : List Char} {c : Char} : Reference e c → Escapes plain raw s → Escapes plain ('&' :: (e ++ ';' :: raw)) (c :: s)

theorem isEntityBodyChar_of_toDigit {radix : Nat} {d : Nat} (h : toDigit radix c = some d) : isEntityBodyChar c := by
  unfold isEntityBodyChar
  rcases toDigit_cases h with h | h | h <;> simp [h]

theorem numeral_body {radix : Nat} {ds : List Char} (h : Numeral radix ds n) : ∀ c ∈ ds, isEntityBodyChar c := fun c hc => by
  obtain ⟨d, hd⟩ := h.digits c hc
  exact isEntityBodyChar_of_toDigit hd

/-- A decimal numeral has no marker of a hexadecimal one. -/
theorem referenceCode_decimal {ds : List Char} (hne : ds ≠ []) (h : Numeral 10 ds n) (hlt : n < 2 ^ 32) : referenceCode ds = some n := by
  have hdigit : ∀ c ∈ ds, c ≤ '9' := fun c hc => by
    obtain ⟨d, hd⟩ := h.digits c hc
    exact le_nine_of_toDigit hd
  unfold referenceCode
  split
  · exact absurd (hdigit 'x' List.mem_cons_self) (by decide)
  · exact absurd (hdigit 'X' List.mem_cons_self) (by decide)
  · exact h.fromStrRadix (by decide) hne hlt

theorem Reference.body {e : List Char} (h : Reference e c) : ∀ c ∈ e, isEntityBodyChar c := by
  cases h with
  | lt | gt | quot | apos | amp => exact List.all_eq_true.mp (by decide)
  | decimal _ hnum _ => exact List.forall_mem_cons.mpr ⟨by decide, numeral_body hnum⟩
  | hex _ hnum _ => exact List.forall_mem_cons.mpr ⟨by decide, List.forall_mem_cons.mpr ⟨by decide, numeral_body hnum⟩⟩

theorem Reference.decodeEntity {e : List Char} (h : Reference e c) : decodeEntity e = some c := by
  cases h with
  | lt | gt | quot | apos | amp => decide
  | decimal hne hnum hxml =>
    unfold Xml.decodeEntity
    simp only [referenceCode_decimal hne hnum (toNat_lt c)]
    simp [charOf_toNat, hxml]
  | hex hne hnum hxml =>
    unfold Xml.decodeEntity
    simp [Xml.referenceCode, hnum.fromStrRadix (by decide) hne (toNat_lt c), charOf_toNat, hxml]

/-! ## Unescaping -/

theorem unescapeAt_char (h : At s i (c :: rest)) (hc : c ≠ '&') : unescapeAt s i = .ok (some c, i + c.utf8Size) := by
  unfold unescapeAt
  dsimp only
  rw [h.drop, (Uniform.isByte (by decide)).head, cut_end h]
  have hne : (c == '&') = false := beq_eq_false_iff_ne.mpr hc
  simp only [List.head?_cons, Option.any_some, hne, Bool.not_false, if_true]
  rfl

/-- After an `&`, the letters, digits and `#` up to a `;` are read when they name a character. -/
theorem unescapeAt_amp {e after : List Char} (h : At s i ('&' :: (e ++ after))) (hbody : ∀ c ∈ e, isEntityBodyChar c)
    (hafter : ∀ c ∈ after.head?, isEntityBodyChar c = false) :
    unescapeAt s i = .ok (match if after.head?.any (· == ';') then decodeEntity e else none with
      | some c => (some c, i + 1 + size e + 1)
      | none => (some '&', i + 1)) := by
  have hbytes : (bytes ('&' :: (e ++ after))).drop 1 = bytes (e ++ after) := rfl
  have hsemi : (bytes ('&' :: (e ++ after)))[1 + size e]?.any (isByte ';') = after.head?.any (· == ';') :=
    byte_at (At.start ('&' :: (e ++ after))).cons.append (by decide)
  have hcut : cut s (i + 1) (i + (1 + size e)) = .ok e := by
    rw [← Nat.add_assoc]
    exact cut_append h.cons
  unfold unescapeAt
  dsimp only
  rw [h.drop, (Uniform.isByte (by decide)).head, hbytes, uniform_entityBody.scanWhile_append hbody hafter, hsemi, hcut]
  simp only [List.head?_cons, Option.any_some, beq_self_eq_true, Bool.not_true, Bool.false_eq_true, if_false]
  split
  · simp only [← Nat.add_assoc]
    change (match decodeEntity e with
      | some ch => _
      | none => _) = _
    cases decodeEntity e <;> rfl
  · rfl

theorem unescapeAt_entity {e : List Char} (h : At s i ('&' :: (e ++ ';' :: rest))) (hbody : ∀ c ∈ e, isEntityBodyChar c)
    (hc : decodeEntity e = some c) : ∃ j, unescapeAt s i = .ok (some c, j) ∧ i < j ∧ At s j rest := by
  have hsemi : ∀ c ∈ (';' :: rest).head?, isEntityBodyChar c = false := by
    intro x hx
    obtain rfl := Option.some.inj hx
    decide
  refine ⟨i + 1 + size e + 1, ?_, by omega, h.cons.append.cons⟩
  rw [unescapeAt_amp h hbody hsemi]
  simp [hc]

theorem unescapeAt_total (h : At s i (c :: rest)) :
    ∃ x j rest', unescapeAt s i = .ok (x, j) ∧ i < j ∧ At s j rest' ∧ rest'.length ≤ rest.length := by
  by_cases hamp : c = '&'
  · subst hamp
    obtain ⟨e, after, rfl, hbody, hafter⟩ : ∃ e after, rest = e ++ after ∧ (∀ c ∈ e, isEntityBodyChar c) ∧
        ∀ c ∈ after.head?, isEntityBodyChar c = false :=
      ⟨rest.takeWhile isEntityBodyChar, rest.dropWhile isEntityBodyChar, List.takeWhile_append_dropWhile.symm,
        fun _ => List.mem_takeWhile_imp, fun x hx => by
          have := List.head?_dropWhile_not isEntityBodyChar rest
          rw [Option.mem_def.mp hx] at this
          exact this⟩
    have heq := unescapeAt_amp h hbody hafter
    cases hdecoded : if after.head?.any (· == ';') then decodeEntity e else none with
    | none => exact ⟨some '&', i + 1, e ++ after, by rw [heq, hdecoded], by omega, h.cons, le_rfl⟩
    | some x =>
      split at hdecoded
      · next hsemi =>
        cases after with
        | nil => cases hsemi
        | cons y after =>
          obtain rfl : y = ';' := beq_iff_eq.mp hsemi
          obtain ⟨j, hj⟩ := unescapeAt_entity h hbody hdecoded
          exact ⟨_, j, after, hj.1, hj.2.1, hj.2.2, by simp; omega⟩
      · cases hdecoded
  · exact ⟨_, _, rest, unescapeAt_char h hamp, by have := c.utf8Size_pos; omega, h.cons, le_rfl⟩

theorem unescapes_total (h : At s i rest) : ∃ t, LoopsFrom unescapeAt .endless s i (.ok t) := by
  induction hk : rest.length using Nat.strong_induction_on generalizing i rest with
  | h k ih =>
    cases rest with
    | nil => exact ⟨[], .done h⟩
    | cons c rest =>
      obtain ⟨x, j, rest', hstep, hlt, hat, hlen⟩ := unescapeAt_total h
      obtain ⟨t, ht⟩ := ih rest'.length (by rw [← hk, List.length_cons]; omega) hat rfl
      exact ⟨_, .step (LoopsFrom.lt h (List.cons_ne_nil c rest)) hstep hlt ht⟩

/-- `unescape` never faults. -/
theorem unescape_total (s : List Char) : ∃ t, unescape s = .ok t := by
  unfold unescape
  split
  · exact ⟨s, rfl⟩
  · obtain ⟨t, ht⟩ := unescapes_total (At.start s)
    exact ⟨t, ht.result⟩

theorem unescapes_escapes {plain : Char → Prop} {raw : List Char} (hraw : Escapes plain raw t) (h : At s i raw) :
    LoopsFrom unescapeAt .endless s i (.ok t) := by
  induction hraw generalizing i with
  | nil => exact .done h
  | char hc _ _ ih => exact .step (LoopsFrom.lt h (List.cons_ne_nil _ _)) (unescapeAt_char h hc) (Nat.lt_add_of_pos_right (Char.utf8Size_pos _)) (ih h.cons)
  | reference href _ ih =>
    obtain ⟨j, hstep, hlt, hat⟩ := unescapeAt_entity h href.body href.decodeEntity
    exact .step (LoopsFrom.lt h (List.cons_ne_nil _ _)) hstep hlt (ih hat)

theorem escapes_plain {plain : Char → Prop} {raw : List Char} (h : Escapes plain raw t) (hamp : '&' ∉ raw) : raw = t := by
  induction h with
  | nil => rfl
  | char _ _ _ ih => rw [ih fun hmem => hamp (List.mem_cons_of_mem _ hmem)]
  | reference => exact absurd List.mem_cons_self hamp

/-- `unescape` undoes every way of escaping. -/
theorem unescape_escapes {plain : Char → Prop} {raw : List Char} (h : Escapes plain raw t) : unescape raw = .ok t := by
  unfold unescape
  split
  · next hamp => rw [escapes_plain h hamp]
  · exact (unescapes_escapes h (At.start raw)).result

end NanoBpm.Xml
