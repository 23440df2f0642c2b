import NanoBpm.Feel.RegexCompile

/-!
# What is found in a text

The groups of a pattern are numbered from one on, so that the first two slots are those of the whole match: from the
place where it was searched for, up to a place at or after it.
-/

namespace NanoBpm.FeelExpr

open Backtrack (Search)

/-! ## The numbers of the groups -/

mutual

/-- Every group that has a number has one with the property. -/
def Pattern.Numbered (P : Nat → Prop) : Pattern → Prop
  | .empty | .char _ | .any | .class' _ _ | .start | .stop => True
  | .group number inner => (∀ n ∈ number, P n) ∧ inner.Numbered P
  | .concat items => NumberedAll P items
  | .alt branches => NumberedAll P branches
  | .star inner => inner.Numbered P
  | .plus inner => inner.Numbered P
  | .quest inner => inner.Numbered P
  | .repeat' inner _ _ => inner.Numbered P

def Pattern.NumberedAll (P : Nat → Prop) : List Pattern → Prop
  | [] => True
  | p :: rest => p.Numbered P ∧ NumberedAll P rest

end

mutual

theorem Pattern.Numbered.mono {P Q : Nat → Prop} (hPQ : ∀ n, P n → Q n) : ∀ p : Pattern, p.Numbered P → p.Numbered Q
  | .empty, _ | .char _, _ | .any, _ | .class' _ _, _ | .start, _ | .stop, _ => trivial
  | .group _ inner, h => ⟨fun n hn => hPQ n (h.1 n hn), Pattern.Numbered.mono hPQ inner h.2⟩
  | .concat items, h => Pattern.NumberedAll.mono hPQ items h
  | .alt branches, h => Pattern.NumberedAll.mono hPQ branches h
  | .star inner, h => Pattern.Numbered.mono hPQ inner h
  | .plus inner, h => Pattern.Numbered.mono hPQ inner h
  | .quest inner, h => Pattern.Numbered.mono hPQ inner h
  | .repeat' inner _ _, h => Pattern.Numbered.mono hPQ inner h

theorem Pattern.NumberedAll.mono {P Q : Nat → Prop} (hPQ : ∀ n, P n → Q n) :
    ∀ ps : List Pattern, Pattern.NumberedAll P ps → Pattern.NumberedAll Q ps
  | [], _ => trivial
  | p :: rest, h => ⟨Pattern.Numbered.mono hPQ p h.1, Pattern.NumberedAll.mono hPQ rest h.2⟩

end

theorem Pattern.NumberedAll.append {P : Nat → Prop} {ps qs : List Pattern} (hp : Pattern.NumberedAll P ps)
    (hq : Pattern.NumberedAll P qs) : Pattern.NumberedAll P (ps ++ qs) := by
  induction ps with
  | nil => exact hq
  | cons p ps ih => exact ⟨hp.1, ih hp.2⟩

section Parser

open Descent

/-- What is read has the next numbers, and the count is that of the last one. -/
def Numbers (groups : Nat) (r : Pattern × Nat) : Prop :=
  groups ≤ r.2 ∧ r.1.Numbered fun n => groups < n ∧ n ≤ r.2

/-- The same of a list. -/
def NumbersAll (groups : Nat) (r : List Pattern × Nat) : Prop :=
  groups ≤ r.2 ∧ Pattern.NumberedAll (fun n => groups < n ∧ n ≤ r.2) r.1

theorem NumbersAll.snoc {groups groups' : Nat} {ps : List Pattern} {r : Pattern × Nat} (h : NumbersAll groups (ps, groups'))
    (hr : Numbers groups' r) : NumbersAll groups (ps ++ [r.1], r.2) := by
  refine ⟨h.1.trans hr.1, ?_⟩
  refine (Pattern.NumberedAll.mono (fun n hn => ?_) _ h.2).append ⟨Pattern.Numbered.mono (fun n hn => ?_) _ hr.2, trivial⟩
  · exact ⟨hn.1, hn.2.trans hr.1⟩
  · exact ⟨h.1.trans_lt hn.1, hn.2⟩

theorem NumbersAll.single {groups : Nat} {r : Pattern × Nat} (h : Numbers groups r) : NumbersAll groups ([r.1], r.2) :=
  ⟨h.1, h.2, trivial⟩

theorem lazyMark_gives {groups groups' : Nat} {q : Pattern} (h : Numbers groups (q, groups')) :
    Gives (lazyMark q groups') (Numbers groups) := by
  refine .after fun o => ?_
  split
  · exact .after fun _ => .pure h
  · exact .pure h

theorem parseClass_gives (P : Nat → Prop) : Gives parseClass (Pattern.Numbered P) := by
  have htail (negated : Bool) : Gives (classTail negated) (Pattern.Numbered P) := by
    intro input p rest hr
    unfold Reads classTail at hr
    split at hr
    · cases hr
    · cases hr
      trivial
  refine .after fun o => ?_
  split
  · exact .after fun _ => htail _
  · exact htail _

theorem numbered_escapeAtom (P : Nat → Prop) (c : Char) : (escapeAtom c).Numbered P := by
  unfold escapeAtom
  split <;> trivial

variable {atom : Nat → Reading (Pattern × Nat)} (hatom : ∀ groups, Gives (atom groups) (Numbers groups))

include hatom

theorem parseQuant_gives (groups : Nat) : Gives (parseQuant atom groups) (Numbers groups) := by
  refine (hatom groups).bind fun r hr => ?_
  refine .after fun o => ?_
  split
  · exact .after fun _ => lazyMark_gives hr
  · exact .after fun _ => lazyMark_gives hr
  · exact .after fun _ => lazyMark_gives hr
  · refine .after fun q => ?_
    split
    · exact lazyMark_gives hr
    · exact .pure hr
  · exact .pure hr

theorem parseConcat_gives (groups : Nat) : Gives (parseConcat atom groups) (Numbers groups) := by
  refine Gives.bind (P := NumbersAll groups) (.chain (fun r hr => ?_) ⟨le_rfl, trivial⟩) fun r hr => ?_
  · refine .after fun o => ?_
    split
    · exact .pure fun b hb => by cases hb
    · exact .pure fun b hb => by cases hb
    · exact .pure fun b hb => by cases hb
    · refine (parseQuant_gives hatom r.2).bind fun q hq => .pure fun b hb => ?_
      cases hb
      exact hr.snoc hq
  · refine .pure ⟨hr.1, ?_⟩
    dsimp only
    split
    · trivial
    · rename_i p hp
      have h := hr.2
      rw [hp] at h
      exact h.1
    · exact hr.2

theorem parseAlt_gives (groups : Nat) : Gives (parseAlt atom groups) (Numbers groups) := by
  refine (parseConcat_gives hatom groups).bind fun r hr => ?_
  refine Gives.bind (P := NumbersAll groups) (.chain (fun r hr => ?_) (NumbersAll.single hr)) fun r hr => ?_
  · refine .after fun o => ?_
    split
    · refine .after fun _ => (parseConcat_gives hatom r.2).bind fun q hq => .pure fun b hb => ?_
      cases hb
      exact hr.snoc hq
    · exact .pure fun b hb => by cases hb
  · refine .pure ⟨hr.1, ?_⟩
    dsimp only
    split
    · rename_i p hp
      have h := hr.2
      rw [hp] at h
      exact h.1
    · exact hr.2

theorem groupTail_gives {groups groups' : Nat} (number : Option Nat) (hle : groups ≤ groups')
    (hnumber : ∀ n ∈ number, groups < n ∧ n ≤ groups') : Gives (groupTail atom number groups') (Numbers groups) := by
  refine (parseAlt_gives hatom groups').bind fun r hr => ?_
  refine .after fun o => ?_
  split
  · refine .pure ⟨hle.trans hr.1, fun n hn => ?_, Pattern.Numbered.mono (fun n hn => ?_) _ hr.2⟩
    · exact ⟨(hnumber n hn).1, (hnumber n hn).2.trans hr.1⟩
    · exact ⟨hle.trans_lt hn.1, hn.2⟩
  · exact .fail _

omit hatom

theorem parseAtom_gives : ∀ groups, Gives (parseAtom groups) (Numbers groups) := by
  refine Gives.fix fun inner hinner groups => ?_
  refine .after fun o => ?_
  split
  · exact .fail _
  · refine .after fun l => ?_
    split
    · exact .after fun _ => groupTail_gives hinner none le_rfl fun n hn => by cases hn
    · refine groupTail_gives hinner _ (Nat.le_succ groups) fun n hn => ?_
      cases hn
      exact ⟨Nat.lt_succ_self groups, le_rfl⟩
  · exact (parseClass_gives fun n => groups < n ∧ n ≤ groups).bind fun p hp => .pure ⟨le_rfl, hp⟩
  · exact .pure ⟨le_rfl, trivial⟩
  · exact .pure ⟨le_rfl, trivial⟩
  · exact .pure ⟨le_rfl, trivial⟩
  · refine .after fun c => ?_
    split
    · exact .fail _
    · exact .pure ⟨le_rfl, numbered_escapeAtom _ _⟩
  · exact .pure ⟨le_rfl, trivial⟩

/-- A pattern that is accepted, and its program. -/
theorem Regex.new_spec {pattern flags : String} {re : Regex} (h : Regex.new pattern flags = some (some re)) :
    ∃ p, parseAlt parseAtom 0 pattern.toList = some (.ok ((p, re.groups), [])) ∧ re.prog = Regex.compile p ∧
      p.Numbered fun n => 0 < n ∧ n ≤ re.groups := by
  unfold Regex.new at h
  split at h
  · cases h
  · cases h
  · rename_i p groups rest hparse
    split at h
    · rename_i hrest
      cases h
      rw [List.isEmpty_iff.mp hrest] at hparse
      exact ⟨p, hparse, rfl, (parseAlt_gives parseAtom_gives 0 _ _ _ hparse).2⟩
    · cases h

end Parser

/-! ## The slots of a match -/

namespace Regex

variable [Unicode] [Casing] {re : Regex} {input : List Char}

/-- A search goes on in the text, and leaves the slots of the whole match. -/
structure Keeps (input : List Char) (s s' : Place) : Prop where
  ahead : s.1 ≤ s'.1
  inside : s.1 ≤ input.length → s'.1 ≤ input.length
  first : s'.2[0]? = s.2[0]?
  length : s'.2.length = s.2.length

omit [Unicode] [Casing] in
theorem Keeps.refl (s : Place) : Keeps input s s := ⟨le_rfl, id, rfl, rfl⟩

omit [Unicode] [Casing] in
theorem Keeps.trans {s₁ s₂ s₃ : Place} (h : Keeps input s₁ s₂) (h' : Keeps input s₂ s₃) : Keeps input s₁ s₃ :=
  ⟨h.ahead.trans h'.ahead, fun hs => h'.inside (h.inside hs), h'.first.trans h.first, h'.length.trans h.length⟩

theorem leads_take (i : Inst) : Backtrack.Leads (take re input i) (Keeps input) := by
  refine (Backtrack.Leads.step _).mono fun s s' hstep => ?_
  split at hstep
  · rename_i htakes
    cases hstep
    refine ⟨Nat.le_succ _, fun _ => Nat.succ_le_of_lt (lt_of_not_ge fun hge => ?_), rfl, rfl⟩
    rw [List.getElem?_eq_none hge] at htakes
    cases htakes
  · cases hstep

omit [Unicode] [Casing] in
theorem leads_test (b : Nat → Bool) : Backtrack.Leads (test b) (Keeps input) := by
  refine (Backtrack.Leads.step _).mono fun s s' hstep => ?_
  split at hstep
  · cases hstep
    exact .refl s
  · cases hstep

omit [Unicode] [Casing] in
theorem mark_leads (slot : Nat) : Backtrack.Leads (mark slot) fun s s' => (s.1, s.2.set slot (some s.1)) = s' :=
  (Backtrack.Leads.step _).mono fun _ _ => Option.some.inj

omit [Unicode] [Casing] in
theorem leads_mark {slot : Nat} (hslot : 0 < slot) : Backtrack.Leads (mark slot) (Keeps input) := by
  refine (mark_leads slot).mono ?_
  rintro s _ rfl
  exact ⟨le_rfl, id, List.getElem?_set_ne hslot.ne', List.length_set⟩

section Closed

variable {p q : Search Place Slots}

omit [Unicode] [Casing]

theorem keeps_skip : Backtrack.Leads (Backtrack.skip : Search Place Slots) (Keeps input) :=
  Backtrack.Leads.skip.mono fun s _ h => h ▸ .refl s

theorem keeps_seq (hp : Backtrack.Leads p (Keeps input)) (hq : Backtrack.Leads q (Keeps input)) :
    Backtrack.Leads (Backtrack.seq p q) (Keeps input) :=
  (hp.seq hq).mono fun _ _ ⟨_, h, h'⟩ => h.trans h'

theorem keeps_alt (hp : Backtrack.Leads p (Keeps input)) (hq : Backtrack.Leads q (Keeps input)) :
    Backtrack.Leads (Backtrack.alt p q) (Keeps input) := (hp.alt hq).mono fun _ _ h => h.elim id id

theorem keeps_times (hp : Backtrack.Leads p (Keeps input)) (n : Nat) :
    Backtrack.Leads (Backtrack.times p n) (Keeps input) := by
  induction n with
  | zero => exact keeps_skip
  | succ n ih => exact keeps_seq hp ih

theorem keeps_star (hp : Backtrack.Leads p (Keeps input)) (limit : Nat) :
    Backtrack.Leads (Backtrack.star Prod.fst p limit) (Keeps input) := by
  refine (hp.star limit).mono fun s s' hpath => ?_
  induction hpath with
  | refl => exact .refl s
  | tail _ hlast ih => exact ih.trans hlast

theorem keeps_plus (hp : Backtrack.Leads p (Keeps input)) (limit : Nat) :
    Backtrack.Leads (Backtrack.plus Prod.fst p limit) (Keeps input) := by
  refine (hp.plus limit).mono fun s s' hpath => ?_
  induction hpath with
  | single h => exact h
  | tail _ hlast ih => exact ih.trans hlast

end Closed

mutual

theorem leads_search : ∀ p : Pattern, p.Numbered (0 < ·) → Backtrack.Leads (search re input p) (Keeps input)
  | .empty, _ => keeps_skip
  | .char _, _ | .any, _ | .class' _ _, _ => leads_take _
  | .start, _ | .stop, _ => leads_test _
  | .group none inner, h => leads_search inner h.2
  | .group (some n) inner, h => by
    have hn := h.1 n rfl
    exact keeps_seq (leads_mark (by omega)) (keeps_seq (leads_search inner h.2) (leads_mark (by omega)))
  | .concat items, h => leads_searchAll items h
  | .alt branches, h => leads_searchAlt branches h
  | .star inner, h => keeps_star (leads_search inner h) _
  | .plus inner, h => keeps_plus (leads_search inner h) _
  | .quest inner, h => keeps_alt (leads_search inner h) keeps_skip
  | .repeat' inner min (some max), h =>
    keeps_seq (keeps_times (leads_search inner h) min) (keeps_times (keeps_alt (leads_search inner h) keeps_skip) _)
  | .repeat' inner min none, h => keeps_seq (keeps_times (leads_search inner h) min) (keeps_star (leads_search inner h) _)

theorem leads_searchAll : ∀ items : List Pattern, Pattern.NumberedAll (0 < ·) items →
    Backtrack.Leads (searchAll re input items) (Keeps input)
  | [], _ => keeps_skip
  | p :: rest, h => keeps_seq (leads_search p h.1) (leads_searchAll rest h.2)

theorem leads_searchAlt : ∀ branches : List Pattern, Pattern.NumberedAll (0 < ·) branches →
    Backtrack.Leads (searchAlt re input branches) (Keeps input)
  | [], _ => keeps_skip
  | [branch], h => leads_search branch h.1
  | branch :: next :: rest, h => keeps_alt (leads_search branch h.1) (leads_searchAlt (next :: rest) h.2)

end

/-- The ends of what was found in all: it begins where it was searched for. -/
theorem searchWhole_found {p : Pattern} (hp : p.Numbered (0 < ·)) {s : Place} {slots : Slots} (hs : s.1 ≤ input.length)
    (hslots : 2 ≤ s.2.length) (h : re.searchWhole input p s = some (some slots)) :
    ∃ e, s.1 ≤ e ∧ e ≤ input.length ∧ slots[0]? = some (some s.1) ∧ slots[1]? = some (some e) := by
  have hleads : Backtrack.Leads (Backtrack.seq (mark 0) (Backtrack.seq (search re input p) (mark 1))) _ :=
    (mark_leads 0).seq ((leads_search p hp).seq (mark_leads 1))
  obtain ⟨_, ⟨_, rfl, s₂, hkeeps, rfl⟩, hk⟩ := hleads s _ slots h
  cases hk
  have hlength := hkeeps.length
  rw [List.length_set] at hlength
  refine ⟨s₂.1, hkeeps.ahead, hkeeps.inside hs, ?_, ?_⟩
  · rw [List.getElem?_set_ne (by omega), hkeeps.first, List.getElem?_set_self (by omega)]
  · rw [List.getElem?_set_self (by omega)]

/-! ## Finding -/

/-- The groups of the slots. -/
def captures (re : Regex) (slots : Slots) : Captures := (List.range (re.groups + 1)).map (groupOf slots)

/-- The slots before a match. -/
def blank (re : Regex) : Slots := List.replicate ((re.groups + 1) * 2) none

theorem findAt_eq (fuel start : Nat) :
    re.findAt input fuel start = (re.exec input fuel 0 (start, re.blank)).map (Option.map re.captures) := by
  unfold findAt exec blank
  rcases re.run input fuel 0 start _ with _ | ⟨_ | _, slots⟩ <;> rfl

theorem findAt_mono {fuel fuel' start : Nat} (hle : fuel ≤ fuel') {o : Option Captures}
    (h : re.findAt input fuel start = some o) : re.findAt input fuel' start = some o := by
  rw [findAt_eq] at h ⊢
  obtain ⟨slots, hslots, rfl⟩ := Option.map_eq_some_iff.mp h
  rw [exec_mono hle hslots]
  rfl

/-- Finding is to try one start after the other. -/
theorem findFrom_succ (fuel tries start : Nat) :
    re.findFrom input fuel (tries + 1) start =
      Backtrack.orElse (re.findAt input fuel start) (re.findFrom input fuel tries (start + 1)) := by
  rw [findFrom]
  rcases re.findAt input fuel start with _ | _ | _ <;> rfl

theorem findFrom_mono {fuel fuel' : Nat} (hle : fuel ≤ fuel') (tries start : Nat) {o : Option Captures}
    (h : re.findFrom input fuel tries start = some o) : re.findFrom input fuel' tries start = some o := by
  induction tries generalizing start o with
  | zero => exact h
  | succ tries ih =>
    rw [findFrom_succ] at h ⊢
    obtain ⟨caps, hcaps, rfl⟩ | ⟨hfailed, hrest⟩ := Backtrack.orElse_eq_some h
    · rw [findAt_mono hle hcaps, Backtrack.orElse_found]
    · rw [findAt_mono hle hfailed, Backtrack.orElse_failed]
      exact ih _ hrest

theorem find_mono {fuel fuel' : Nat} (hle : fuel ≤ fuel') {start : Nat} {o : Option Captures}
    (h : re.find input fuel start = some o) : re.find input fuel' start = some o := findFrom_mono hle _ start h

/-- What is found is found at the first start where anything is. -/
theorem findFrom_found {fuel : Nat} (tries start : Nat) {caps : Captures}
    (h : re.findFrom input fuel tries start = some (some caps)) :
    ∃ s, start ≤ s ∧ s < start + tries ∧ re.findAt input fuel s = some (some caps) ∧
      ∀ x, start ≤ x → x < s → re.findAt input fuel x = some none := by
  induction tries generalizing start with
  | zero => cases h
  | succ tries ih =>
    rw [findFrom_succ] at h
    obtain ⟨caps', hcaps, heq⟩ | ⟨hfailed, hrest⟩ := Backtrack.orElse_eq_some h
    · cases heq
      exact ⟨start, le_rfl, by omega, hcaps, fun x _ _ => by omega⟩
    · obtain ⟨s, hle, hlt, hs, hbefore⟩ := ih _ hrest
      refine ⟨s, by omega, by omega, hs, fun x hx hxs => ?_⟩
      rcases Nat.eq_or_lt_of_le hx with rfl | hlater
      · exact hfailed
      · exact hbefore x hlater hxs

theorem find_at {fuel s : Nat} (hs : s ≤ input.length) {caps : Captures} (h : re.findAt input fuel s = some (some caps)) :
    re.find input fuel s = some (some caps) := by
  unfold find
  rw [show input.length + 1 - s = (input.length - s) + 1 by omega, findFrom_succ, h, Backtrack.orElse_found]

/-- The searches from one start after the other. -/
def seek (re : Regex) (input : List Char) (p : Pattern) : Nat → Nat → Backtrack.Outcome Slots
  | 0, _ => some none
  | tries + 1, start =>
    Backtrack.orElse (re.searchWhole input p (start, re.blank)) (seek re input p tries (start + 1))

/-- The loop of `find` comes to an end where the searches do, and with the same result. -/
theorem exists_findFrom_iff {p : Pattern} (hprog : re.prog = compile p) (tries : Nat) {start : Nat}
    (hstart : start + tries ≤ input.length + 1) (o : Option Captures) :
    (∃ fuel, re.findFrom input fuel tries start = some o) ↔
      (re.seek input p tries start).map (Option.map re.captures) = some o := by
  induction tries generalizing start o with
  | zero => exact ⟨fun ⟨_, h⟩ => h, fun h => ⟨0, h⟩⟩
  | succ tries ih =>
    have hrest := @ih (start + 1) (by omega)
    have hhere (r : Option Slots) : (∃ n, re.exec input n 0 (start, re.blank) = some r) ↔
        re.searchWhole input p (start, re.blank) = some r := exec_compile hprog (by dsimp only; omega) r
    constructor
    · rintro ⟨fuel, h⟩
      rw [findFrom_succ] at h
      rw [seek]
      obtain ⟨caps, hcaps, rfl⟩ | ⟨hfailed, hlater⟩ := Backtrack.orElse_eq_some h
      · rw [findAt_eq] at hcaps
        obtain ⟨slots, hslots, hmap⟩ := Option.map_eq_some_iff.mp hcaps
        obtain ⟨slots, rfl, rfl⟩ := Option.map_eq_some_iff.mp hmap
        rw [(hhere _).mp ⟨fuel, hslots⟩]
        rfl
      · rw [findAt_eq] at hfailed
        obtain ⟨slots, hslots, hmap⟩ := Option.map_eq_some_iff.mp hfailed
        cases Option.map_eq_none_iff.mp hmap
        rw [(hhere _).mp ⟨fuel, hslots⟩, Backtrack.orElse_failed]
        exact (hrest o).mp ⟨fuel, hlater⟩
    · intro h
      rw [seek] at h
      obtain ⟨slots, hslots, rfl⟩ := Option.map_eq_some_iff.mp h
      obtain ⟨r, hr, rfl⟩ | ⟨hfailed, hlater⟩ := Backtrack.orElse_eq_some hslots
      · obtain ⟨fuel, hfuel⟩ := (hhere _).mpr hr
        refine ⟨fuel, ?_⟩
        rw [findFrom_succ, findAt_eq, hfuel]
        rfl
      · obtain ⟨fuel, hfuel⟩ := (hhere _).mpr hfailed
        obtain ⟨fuel', hfuel'⟩ := (hrest _).mpr (by rw [hlater]; rfl)
        refine ⟨max fuel fuel', ?_⟩
        rw [findFrom_succ, findAt_eq, exec_mono (le_max_left fuel fuel') hfuel]
        exact findFrom_mono (le_max_right fuel fuel') _ _ hfuel'

theorem exists_find_iff {p : Pattern} (hprog : re.prog = compile p) (start : Nat) (o : Option Captures) :
    (∃ fuel, re.find input fuel start = some o) ↔
      (re.seek input p (input.length + 1 - start) start).map (Option.map re.captures) = some o := by
  rcases Nat.le_total start (input.length + 1) with hle | hle
  · exact exists_findFrom_iff hprog _ (by omega) o
  · unfold find
    rw [Nat.sub_eq_zero_of_le hle]
    exact ⟨fun ⟨_, h⟩ => h, fun h => ⟨0, h⟩⟩

variable {p : Pattern} (hprog : re.prog = compile p) (hp : p.Numbered (0 < ·))

include hprog hp

theorem findAt_whole {fuel s : Nat} (hs : s ≤ input.length) {caps : Captures}
    (h : re.findAt input fuel s = some (some caps)) : ∃ e, whole caps = some (s, e) ∧ s ≤ e ∧ e ≤ input.length := by
  rw [findAt_eq] at h
  obtain ⟨o, ho, hcaps⟩ := Option.map_eq_some_iff.mp h
  obtain ⟨slots, rfl, rfl⟩ := Option.map_eq_some_iff.mp hcaps
  have hsearch := (exec_compile hprog (s := (s, re.blank)) hs _).mp ⟨fuel, ho⟩
  obtain ⟨e, hse, he, hfirst, hsecond⟩ := searchWhole_found hp hs (by simp only [blank, List.length_replicate]; omega) hsearch
  refine ⟨e, ?_, hse, he⟩
  simp [whole, captures, groupOf, hfirst, hsecond]

/-- What is found from a start is a match at the place where it begins, and is found again from there. -/
theorem find_whole {fuel start : Nat} {caps : Captures} (h : re.find input fuel start = some (some caps)) :
    ∃ s e, whole caps = some (s, e) ∧ start ≤ s ∧ s ≤ e ∧ e ≤ input.length ∧ re.find input fuel s = some (some caps) := by
  obtain ⟨s, hle, hlt, hs, _⟩ := findFrom_found _ _ h
  obtain ⟨e, hwhole, hse, he⟩ := findAt_whole hprog hp (by omega) hs
  exact ⟨s, e, hwhole, hle, hse, he, find_at (by omega) hs⟩

end Regex

end NanoBpm.FeelExpr
