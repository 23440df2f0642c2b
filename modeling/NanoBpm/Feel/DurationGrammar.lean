import Mathlib.Data.List.Sublists
import NanoBpm.Feel.Durations

/-!
# The grammar of durations (`temporal.rs:88-197`)

What `parse_duration_nanos` accepts are the texts of the grammar, and those in which units repeat, are out of order, or are
missing after the `T`.
-/

namespace NanoBpm

open Decimal (value rounded Number AllDigits)
open DurationField (texts)

variable {form : DurationForm} {raw : List Char} {n : Int}

/-! ## What is accepted -/

theorem guard_eq_some {b : Bool} : (guard b : Option Unit) = some () ↔ b := by
  cases b <;> simp [guard]

theorem scanParts_iff {d t : List Char} :
    scanParts form d t = some n ↔ ∃ ds ts, d = texts ds ∧ t = texts ts ∧ (∀ f ∈ ds, DurationField.Date form f) ∧
      (∀ f ∈ ts, DurationField.Time form f) ∧ ds ++ ts ≠ [] ∧
      n = (DurationField.total ds + DurationField.total ts : Nat) ∧ n ≤ i128Max := by
  have hunit : ∀ ds ts : List DurationField, (false || !ds.isEmpty || !ts.isEmpty) = true ↔ ds ++ ts ≠ [] := by
    intro ds ts
    cases ds <;> cases ts <;> simp
  unfold scanParts
  constructor
  · intro h
    obtain ⟨s, hs, h⟩ := Option.bind_eq_some_iff.mp h
    obtain ⟨ds, tail, htext, hds, -, rfl, hsum⟩ := ((reads_date form).foldlM_iff (by simp) le_rfl).mp hs
    obtain ⟨⟨⟩, htail, h⟩ := Option.bind_eq_some_iff.mp h
    obtain rfl := List.isEmpty_iff.mp (guard_eq_some.mp htail)
    obtain ⟨s', hs', h⟩ := Option.bind_eq_some_iff.mp h
    obtain ⟨ts, tail, htext', hts, -, rfl, hsum'⟩ :=
      ((reads_time form).foldlM_iff (by simp) (by dsimp only; omega)).mp hs'
    obtain ⟨⟨⟩, hend, h⟩ := Option.bind_eq_some_iff.mp h
    obtain ⟨htail, hsaw⟩ := Bool.and_eq_true_iff.mp (guard_eq_some.mp hend)
    obtain rfl := List.isEmpty_iff.mp htail
    have hempty := (hunit ds ts).mp hsaw
    obtain rfl := Option.some.inj h
    refine ⟨ds, ts, by simpa using htext, by simpa using htext', hds, hts, hempty, by dsimp only; omega, ?_⟩
    cases ts with
    | nil =>
      have := hsum (by simpa using hempty)
      simpa [DurationField.total] using this
    | cons f ts => exact hsum' (by simp)
  · rintro ⟨ds, ts, rfl, rfl, hds, hts, hempty, rfl, hle⟩
    have hdate := ((reads_date form).foldlM_iff (by simp) le_rfl : (texts ds).foldlM _ ({} : Scan) = some _ ↔ _).mpr
      ⟨ds, [], by simp, hds, by simp, rfl, fun _ => by dsimp only; omega⟩
    have htime := ((reads_time form).foldlM_iff (by simp) (by dsimp only; omega) :
      (texts ts).foldlM _ (⟨0 + DurationField.total ds, false || !ds.isEmpty, []⟩ : Scan) = some _ ↔ _).mpr ⟨ts, [], by simp, hts, by simp, rfl, fun _ => by dsimp only; omega⟩
    refine Option.bind_eq_some_iff.mpr ⟨_, hdate, Option.bind_eq_some_iff.mpr ⟨(), rfl, ?_⟩⟩
    refine Option.bind_eq_some_iff.mpr ⟨_, htime, Option.bind_eq_some_iff.mpr ⟨(), guard_eq_some.mpr ?_, ?_⟩⟩
    · exact Bool.and_eq_true_iff.mpr ⟨rfl, (hunit ds ts).mpr hempty⟩
    · exact congrArg some (by dsimp only; omega)

/-- A sign, the fields of the date part and, after a `T`, those of the time part. -/
structure DurationText where
  sign : Option Char
  date : List DurationField
  marker : Bool
  time : List DurationField

namespace DurationText

def body (t : DurationText) : List Char := texts t.date ++ if t.marker then 'T' :: texts t.time else []

def text (t : DurationText) : List Char := t.sign.toList ++ 'P' :: t.body

def total (t : DurationText) : Nat := DurationField.total t.date + DurationField.total t.time

def nanos (t : DurationText) : Int := if t.sign = some '-' then -t.total else t.total

def Signed (form : DurationForm) (sign : Option Char) : Prop :=
  sign = none ∨ form.allowSign ∧ (sign = some '-' ∨ sign = some '+')

/-- What the loops ask for. -/
structure Scanned (form : DurationForm) (t : DurationText) : Prop where
  sign : Signed form t.sign
  date : ∀ f ∈ t.date, DurationField.Date form f
  time : ∀ f ∈ t.time, DurationField.Time form f
  marker : t.marker = false → t.time = []
  unit : t.date ++ t.time ≠ []

end DurationText

theorem DurationField.Date.not_marker {fs : List DurationField} (h : ∀ f ∈ fs, DurationField.Date form f) : 'T' ∉ texts fs := by
  intro hmem
  obtain ⟨f, hf, hmem⟩ := List.mem_flatMap.mp hmem
  rcases List.mem_append.mp hmem with hmem | hmem
  · exact absurd ((h f hf).1.2 _ hmem) (by decide)
  · rw [List.mem_singleton] at hmem
    rcases (h f hf).2 with ⟨hw, -⟩ | hd
    · rw [hw] at hmem
      cases hmem
    · rw [hd] at hmem
      cases hmem

theorem stripP_eq_some {s body : List Char} : stripP s = some body ↔ s = 'P' :: body := by
  unfold stripP
  split
  · simp [eq_comm]
  · next h => exact ⟨nofun, fun heq => absurd heq (h body)⟩

/-- A sign is taken off where one is allowed. -/
theorem sign_iff {neg : Bool} {body : List Char} :
    (if form.allowSign then stripSign raw else (false, raw)) = (neg, 'P' :: body) ↔
      ∃ sign, DurationText.Signed form sign ∧ raw = sign.toList ++ 'P' :: body ∧ (neg = true ↔ sign = some '-') := by
  constructor
  · intro h
    split at h
    · next hallow =>
      unfold stripSign at h
      split at h
      · obtain ⟨rfl, rfl⟩ := Prod.mk.inj h
        exact ⟨some '-', .inr ⟨hallow, .inl rfl⟩, rfl, by simp⟩
      · obtain ⟨rfl, rfl⟩ := Prod.mk.inj h
        exact ⟨some '+', .inr ⟨hallow, .inr rfl⟩, rfl, by simp⟩
      · obtain ⟨rfl, rfl⟩ := Prod.mk.inj h
        exact ⟨none, .inl rfl, rfl, by simp⟩
    · obtain ⟨rfl, rfl⟩ := Prod.mk.inj h
      exact ⟨none, .inl rfl, rfl, by simp⟩
  · rintro ⟨sign, hsign, rfl, hneg⟩
    rcases hsign with rfl | ⟨hallow, rfl | rfl⟩
    · have hfalse : neg = false := by simpa using hneg
      subst hfalse
      split <;> rfl
    · obtain rfl := hneg.mpr rfl
      rw [if_pos hallow]
      rfl
    · have hfalse : neg = false := by simpa using hneg
      subst hfalse
      rw [if_pos hallow]
      rfl

theorem parseDurationNanos_iff :
    parseDurationNanos raw form = some n ↔
      ∃ t : DurationText, t.Scanned form ∧ t.text = raw ∧ n = t.nanos ∧ (t.total : Int) ≤ i128Max := by
  unfold parseDurationNanos
  constructor
  · intro h
    obtain ⟨neg, s, hsign⟩ : ∃ neg s, (if form.allowSign then stripSign raw else (false, raw)) = (neg, s) := ⟨_, _, rfl⟩
    rw [hsign] at h
    obtain ⟨body, hbody, hscan⟩ := Option.bind_eq_some_iff.mp h
    obtain rfl := stripP_eq_some.mp hbody
    obtain ⟨sign, hsigned, rfl, hneg⟩ := sign_iff.mp hsign
    obtain ⟨⟨⟩, -, hscan⟩ := Option.bind_eq_some_iff.mp hscan
    obtain ⟨k, hk, hscan⟩ := Option.bind_eq_some_iff.mp hscan
    obtain rfl := Option.some.inj hscan
    obtain ⟨ds, ts, hd, ht, hds, hts, hunit, rfl, hle⟩ := scanParts_iff.mp hk
    obtain ⟨marker, hmarker, hbody⟩ : ∃ marker, (marker = false → ts = []) ∧
        body = texts ds ++ if marker then 'T' :: texts ts else [] := by
      cases hsplit : splitOnce 'T' body with
      | none =>
        rw [hsplit] at hd ht
        refine ⟨false, fun _ => ?_, by simpa using hd⟩
        cases ts with
        | nil => rfl
        | cons f ts => simp [texts, DurationField.text] at ht
      | some p =>
        rw [hsplit] at hd ht
        have hcut := (splitOnce_eq_some.mp hsplit).1
        exact ⟨true, fun h => Bool.noConfusion h, by rw [hcut, if_pos rfl, ← hd, ← ht]⟩
    refine ⟨⟨sign, ds, marker, ts⟩, ⟨hsigned, hds, hts, hmarker, hunit⟩, by rw [hbody]; rfl, ?_, hle⟩
    exact if_congr hneg rfl rfl
  · rintro ⟨⟨sign, ds, marker, ts⟩, ⟨hsigned, hds, hts, hmarker, hunit⟩, rfl, rfl, hle⟩
    have hsign (body : List Char) : (if form.allowSign then stripSign (sign.toList ++ 'P' :: body)
        else (false, sign.toList ++ 'P' :: body)) = (decide (sign = some '-'), 'P' :: body) :=
      sign_iff.mpr ⟨sign, hsigned, rfl, decide_eq_true_iff⟩
    have hnonempty : (DurationText.body ⟨sign, ds, marker, ts⟩).isEmpty = false := by
      rw [List.isEmpty_eq_false_iff]
      intro hnil
      obtain ⟨hd, ht⟩ := List.append_eq_nil_iff.mp hnil
      apply hunit
      cases ds with
      | cons f ds => simp [texts, DurationField.text] at hd
      | nil =>
        cases marker with
        | true => cases ht
        | false => exact hmarker rfl
    have hparts : (splitOnce 'T' (DurationText.body ⟨sign, ds, marker, ts⟩)).getD
        (DurationText.body ⟨sign, ds, marker, ts⟩, []) = (texts ds, texts ts) := by
      have hdate := DurationField.Date.not_marker hds
      cases marker with
      | true =>
        have hbody : DurationText.body ⟨sign, ds, true, ts⟩ = texts ds ++ 'T' :: texts ts := rfl
        rw [hbody, splitOnce_eq_some.mpr ⟨rfl, hdate⟩]
        rfl
      | false =>
        obtain rfl := hmarker rfl
        have hbody : DurationText.body ⟨sign, ds, false, []⟩ = texts ds := List.append_nil _
        rw [hbody, splitOnce_eq_none.mpr hdate]
        rfl
    have hscan := scanParts_iff.mpr ⟨ds, ts, rfl, rfl, hds, hts, hunit, rfl, hle⟩
    unfold DurationText.text
    rw [hsign]
    refine Option.bind_eq_some_iff.mpr ⟨_, rfl, Option.bind_eq_some_iff.mpr ⟨(), guard_eq_some.mpr (by rw [hnonempty]; rfl), ?_⟩⟩
    rw [hparts]
    refine Option.bind_eq_some_iff.mpr ⟨_, hscan, ?_⟩
    unfold DurationText.nanos
    simp [DurationText.total]

/-! ## The grammar -/

/-- A duration as the grammar has it: every unit at most once. The seconds may have a fraction. -/
structure Duration where
  sign : Option Char := none
  weeks : Option (List Char) := none
  days : Option (List Char) := none
  hours : Option (List Char) := none
  minutes : Option (List Char) := none
  seconds : Option (List Char × Option (List Char)) := none

namespace Duration

def unitText (num : Option (List Char)) (letter : Char) : List Char := num.elim [] (· ++ [letter])

def secondsText : Option (List Char × Option (List Char)) → List Char
  | none => []
  | some (i, none) => i ++ ['S']
  | some (i, some f) => i ++ '.' :: f ++ ['S']

def hasTime (d : Duration) : Bool := d.hours.isSome || d.minutes.isSome || d.seconds.isSome

def text (d : Duration) : List Char :=
  d.sign.toList ++ 'P' :: (unitText d.weeks 'W' ++ unitText d.days 'D' ++
    if d.hasTime then 'T' :: (unitText d.hours 'H' ++ unitText d.minutes 'M' ++ secondsText d.seconds) else [])

def unitValue (num : Option (List Char)) (seconds : Nat) : Nat := num.elim 0 fun num => value num * (seconds * 1000000000)

/-- Nanoseconds, a fraction of a second rounded half up. -/
def secondsValue : Option (List Char × Option (List Char)) → Nat
  | none => 0
  | some (i, f) => value i * 1000000000 + f.elim 0 (rounded 9)

def magnitude (d : Duration) : Nat :=
  unitValue d.weeks (7 * 86400) + unitValue d.days 86400 + unitValue d.hours 3600 + unitValue d.minutes 60 +
    secondsValue d.seconds

def nanos (d : Duration) : Int := if d.sign = some '-' then -d.magnitude else d.magnitude

/-- What the form allows: signs, weeks and fractions are its choices. -/
structure Allowed (form : DurationForm) (d : Duration) : Prop where
  sign : d.sign = none ∨ form.allowSign ∧ (d.sign = some '-' ∨ d.sign = some '+')
  weeks : ∀ num, d.weeks = some num → form.allowWeeks ∧ Number num
  days : ∀ num, d.days = some num → Number num
  hours : ∀ num, d.hours = some num → Number num
  minutes : ∀ num, d.minutes = some num → Number num
  whole : ∀ i, d.seconds = some (i, none) → Number i
  fraction : ∀ i f, d.seconds = some (i, some f) → form.allowFraction ∧ AllDigits i ∧ AllDigits f ∧ (i ≠ [] ∨ f ≠ [])
  unit : d.weeks.isSome || d.days.isSome || d.hasTime

/-! ### As the loops read it -/

def unitField (num : Option (List Char)) (letter : Char) : List DurationField := (num.map (⟨·, letter⟩)).toList

def secondsNum : List Char × Option (List Char) → List Char
  | (i, none) => i
  | (i, some f) => i ++ '.' :: f

def reading (d : Duration) : DurationText where
  sign := d.sign
  date := unitField d.weeks 'W' ++ unitField d.days 'D'
  marker := d.hasTime
  time := unitField d.hours 'H' ++ unitField d.minutes 'M' ++ unitField (d.seconds.map secondsNum) 'S'

variable {d : Duration}

theorem texts_unitField (num : Option (List Char)) (letter : Char) : texts (unitField num letter) = unitText num letter := by
  cases num <;> simp [unitField, unitText, texts, DurationField.text]

theorem texts_append (fs gs : List DurationField) : texts (fs ++ gs) = texts fs ++ texts gs := List.flatMap_append

theorem total_append (fs gs : List DurationField) :
    DurationField.total (fs ++ gs) = DurationField.total fs + DurationField.total gs := by
  simp [DurationField.total]

theorem unitText_seconds (s : Option (List Char × Option (List Char))) : unitText (s.map secondsNum) 'S' = secondsText s := by
  rcases s with _ | ⟨i, _ | f⟩ <;> simp [unitText, secondsText, secondsNum]

theorem reading_text (d : Duration) : d.reading.text = d.text := by
  unfold DurationText.text DurationText.body reading text
  simp only [texts_append, texts_unitField, unitText_seconds]

theorem total_singleton (f : DurationField) : DurationField.total [f] = f.nanos := by
  rw [DurationField.total, List.map_singleton, List.sum_singleton]

theorem unitField_some (num : List Char) (letter : Char) : unitField (some num) letter = [⟨num, letter⟩] := rfl

theorem total_unitField {num : Option (List Char)} {letter : Char} {seconds : Nat}
    (hunit : DurationField.unitNanos letter = seconds * 1000000000) (hletter : letter ≠ 'S') :
    DurationField.total (unitField num letter) = unitValue num seconds := by
  cases num with
  | none => rfl
  | some num =>
    rw [unitField_some, total_singleton, DurationField.nanos, if_neg hletter, hunit, unitValue, Option.elim_some]

theorem total_seconds {s : Option (List Char × Option (List Char))} (hwhole : ∀ i, s = some (i, none) → Number i)
    (hfraction : ∀ i f, s = some (i, some f) → AllDigits i) :
    DurationField.total (unitField (s.map secondsNum) 'S') = secondsValue s := by
  rcases s with _ | ⟨i, _ | f⟩
  · rfl
  · rw [Option.map_some, unitField_some, total_singleton, DurationField.nanos, if_pos rfl, secondsNum, secondsNanos,
      splitOnce_eq_none.mpr (AllDigits.not_point (hwhole i rfl).2), secondsValue, Option.elim_none, Nat.add_zero]
  · rw [Option.map_some, unitField_some, total_singleton, DurationField.nanos, if_pos rfl, secondsNum, secondsNanos,
      splitOnce_eq_some.mpr ⟨rfl, AllDigits.not_point (hfraction i f rfl)⟩, secondsValue, Option.elim_some]

theorem Allowed.total (h : d.Allowed form) : d.reading.total = d.magnitude := by
  unfold DurationText.total reading magnitude
  simp only [total_append]
  rw [total_unitField rfl (by decide), total_unitField rfl (by decide), total_unitField rfl (by decide),
    total_unitField rfl (by decide), total_seconds h.whole fun i f hf => (h.fraction i f hf).2.1]
  omega

theorem Allowed.reading_nanos (h : d.Allowed form) : d.reading.nanos = d.nanos := by
  unfold DurationText.nanos nanos
  rw [h.total]
  rfl

theorem mem_unitField {num : Option (List Char)} {letter : Char} {f : DurationField} :
    f ∈ unitField num letter ↔ num = some f.num ∧ f.letter = letter := by
  cases num with
  | none => simp [unitField]
  | some num =>
    cases f
    simp [unitField, eq_comm]

theorem Allowed.scanned (h : d.Allowed form) : d.reading.Scanned form where
  sign := h.sign
  date f hf := by
    rcases List.mem_append.mp hf with hf | hf
    · obtain ⟨hnum, hletter⟩ := mem_unitField.mp hf
      obtain ⟨hallow, hnumber⟩ := h.weeks _ hnum
      exact ⟨hnumber, .inl ⟨hletter, hallow⟩⟩
    · obtain ⟨hnum, hletter⟩ := mem_unitField.mp hf
      exact ⟨h.days _ hnum, .inr hletter⟩
  time f hf := by
    rcases List.mem_append.mp hf with hf | hf
    · rcases List.mem_append.mp hf with hf | hf
      · obtain ⟨hnum, hletter⟩ := mem_unitField.mp hf
        exact .inl ⟨h.hours _ hnum, .inl hletter⟩
      · obtain ⟨hnum, hletter⟩ := mem_unitField.mp hf
        exact .inl ⟨h.minutes _ hnum, .inr hletter⟩
    · obtain ⟨hnum, hletter⟩ := mem_unitField.mp hf
      obtain ⟨⟨i, f'⟩, hs, hnum⟩ := Option.map_eq_some_iff.mp hnum
      refine .inr ⟨?_, hletter⟩
      cases f' with
      | none => exact .inl (hnum ▸ h.whole i hs)
      | some f' =>
        obtain ⟨hallow, hi, hf', hne⟩ := h.fraction i f' hs
        exact .inr ⟨hallow, i, f', hnum.symm, hi, hf', hne⟩
  marker hmarker := by
    simp only [reading, hasTime, Bool.or_eq_false_iff, Option.isSome_eq_false_iff, Option.isNone_iff_eq_none] at hmarker
    simp [reading, unitField, hmarker]
  unit := by
    have hunit := h.unit
    simp only [hasTime, Bool.or_eq_true, Option.isSome_iff_exists] at hunit
    simp only [reading, unitField, ne_eq, List.append_eq_nil_iff, Option.toList_eq_nil_iff, Option.map_eq_none_iff]
    rintro ⟨⟨hw, hd⟩, ⟨hh, hm⟩, hs⟩
    simp [hw, hd, hh, hm, hs] at hunit

end Duration

/-! ## Units in order -/

def letters (raw : List Char) : List Char := raw.filter Char.isAlpha

/-- The units are those of a duration: each at most once, in their order, and one at least after a `T`. -/
def InOrder (raw : List Char) : Prop :=
  ∃ date time, List.Sublist date ['W', 'D'] ∧ List.Sublist time ['H', 'M', 'S'] ∧
    letters raw = 'P' :: (date ++ if time = [] then [] else 'T' :: time)

instance (raw : List Char) : Decidable (InOrder raw) :=
  decidable_of_iff (∃ date ∈ List.sublists ['W', 'D'], ∃ time ∈ List.sublists ['H', 'M', 'S'],
    letters raw = 'P' :: (date ++ if time = [] then [] else 'T' :: time)) (by simp only [InOrder, List.mem_sublists, exists_and_left])

theorem letters_append (a b : List Char) : letters (a ++ b) = letters a ++ letters b := List.filter_append ..

theorem letters_digits {num : List Char} (h : ∀ c ∈ num, isNumeral c) : letters num = [] := by
  refine List.filter_eq_nil_iff.mpr fun c hc => ?_
  have hnum := h c hc
  simp only [isNumeral, Bool.or_eq_true, beq_iff_eq] at hnum
  rcases hnum with hdigit | rfl
  · simp only [Char.isDigit, Bool.and_eq_true, decide_eq_true_eq] at hdigit
    change ¬(decide (65 ≤ c.val ∧ c.val ≤ 90) || (decide (97 ≤ c.val) && decide (c.val ≤ 122))) = true
    simp only [Bool.or_eq_true, Bool.and_eq_true, decide_eq_true_eq]
    have hval : c.val.toNat ≤ 57 := UInt32.le_iff_toNat_le.mp hdigit.2
    rintro (⟨hletter, -⟩ | ⟨hletter, -⟩)
    · have hle : 65 ≤ c.val.toNat := UInt32.le_iff_toNat_le.mp hletter
      omega
    · have hle : 97 ≤ c.val.toNat := UInt32.le_iff_toNat_le.mp hletter
      omega
  · decide

theorem letters_texts {fs : List DurationField} (h : ∀ f ∈ fs, (∀ c ∈ f.num, isNumeral c) ∧ f.letter.isAlpha) :
    letters (texts fs) = fs.map DurationField.letter := by
  induction fs with
  | nil => rfl
  | cons f fs ih =>
    obtain ⟨⟨hnum, hletter⟩, hfs⟩ := List.forall_mem_cons.mp h
    have hfield : letters f.text = [f.letter] := by
      rw [DurationField.text, letters_append, letters_digits hnum, List.nil_append]
      exact List.filter_cons_of_pos hletter
    have htexts : texts (f :: fs) = f.text ++ texts fs := rfl
    rw [htexts, letters_append, hfield, ih hfs]
    rfl

theorem timeDigit_numeral {c : Char} (h : timeDigit form c) : isNumeral c := by
  simp only [timeDigit, Bool.or_eq_true, Bool.and_eq_true] at h
  simp only [isNumeral, Bool.or_eq_true]
  exact h.imp_right And.left

theorem DurationField.Date.field {f : DurationField} (h : DurationField.Date form f) :
    (∀ c ∈ f.num, isNumeral c) ∧ f.letter.isAlpha ∧ f.letter ≠ 'T' := by
  refine ⟨AllDigits.allNumerals h.1.2, ?_⟩
  rcases h.2 with ⟨hl, -⟩ | hl <;> rw [hl] <;> decide

theorem DurationField.Time.field {f : DurationField} (h : DurationField.Time form f) :
    (∀ c ∈ f.num, isNumeral c) ∧ f.letter.isAlpha := by
  refine ⟨fun c hc => timeDigit_numeral ((reads_time form).num f h c hc), ?_⟩
  rcases h with ⟨-, hl | hl⟩ | ⟨-, hl⟩ <;> rw [hl] <;> decide

namespace DurationText

variable {t : DurationText}

theorem Scanned.letters_text (h : t.Scanned form) :
    letters t.text = 'P' :: (t.date.map DurationField.letter ++ if t.marker then 'T' :: t.time.map DurationField.letter else []) := by
  have hdate := letters_texts fun f hf => ⟨(h.date f hf).field.1, (h.date f hf).field.2.1⟩
  have htime := letters_texts fun f hf => (h.time f hf).field
  have hsign : letters t.sign.toList = [] := by
    rcases h.sign with hs | ⟨-, hs | hs⟩ <;> rw [hs] <;> rfl
  have hbody : letters t.body = t.date.map DurationField.letter ++ if t.marker then 'T' :: t.time.map DurationField.letter else [] := by
    unfold body
    rw [letters_append, hdate]
    split
    · rw [← htime]
      rfl
    · rfl
  rw [text, letters_append, hsign, ← hbody]
  rfl

/-- What the letters in order say of the fields. -/
theorem Scanned.ordered (h : t.Scanned form) (horder : InOrder t.text) :
    List.Sublist (t.date.map DurationField.letter) ['W', 'D'] ∧ List.Sublist (t.time.map DurationField.letter) ['H', 'M', 'S'] ∧
      (t.marker = true → t.time ≠ []) := by
  obtain ⟨date, time, hdate, htime, heq⟩ := horder
  rw [h.letters_text, List.cons.injEq] at heq
  have hmarker : ∀ c ∈ t.date.map DurationField.letter, (c != 'T') = true := by
    intro c hc
    obtain ⟨f, hf, rfl⟩ := List.mem_map.mp hc
    exact bne_iff_ne.mpr (h.date f hf).field.2.2
  have hdate' : ∀ c ∈ date, (c != 'T') = true := fun c hc => by
    have hmem := hdate.subset hc
    simp only [List.mem_cons, List.not_mem_nil, or_false] at hmem
    rcases hmem with rfl | rfl <;> decide
  have hcut := heq.2
  cases hm : t.marker with
  | true =>
    rw [hm, if_pos rfl] at hcut
    by_cases hnil : time = []
    · rw [if_pos hnil, List.append_nil] at hcut
      have := hdate' 'T' (hcut ▸ List.mem_append_right _ List.mem_cons_self)
      cases this
    · rw [if_neg hnil] at hcut
      obtain ⟨rfl, -, rfl⟩ := cut_inj hmarker hdate' rfl rfl hcut
      exact ⟨hdate, htime, fun _ hempty => hnil (by rw [hempty]; rfl)⟩
  | false =>
    rw [hm, if_neg Bool.false_ne_true, List.append_nil] at hcut
    by_cases hnil : time = []
    · rw [if_pos hnil, List.append_nil] at hcut
      exact ⟨hcut ▸ hdate, by rw [h.marker hm]; exact List.nil_sublist _, nofun⟩
    · rw [if_neg hnil] at hcut
      have := hmarker 'T' (hcut ▸ List.mem_append_right _ List.mem_cons_self)
      cases this

end DurationText

namespace Duration

variable {d : Duration}

theorem Allowed.inOrder (h : d.Allowed form) : InOrder d.text := by
  have hunit : ∀ (num : Option (List Char)) (letter : Char) (fs : List DurationField) (ls : List Char),
      List.Sublist (fs.map DurationField.letter) ls →
        List.Sublist ((unitField num letter ++ fs).map DurationField.letter) (letter :: ls) := by
    intro num letter fs ls hsub
    cases num with
    | none => exact hsub.cons _
    | some num => exact hsub.cons_cons _
  refine ⟨d.reading.date.map DurationField.letter, d.reading.time.map DurationField.letter, ?_, ?_, ?_⟩
  · have hdays := hunit d.days 'D' [] [] (List.Sublist.refl _)
    rw [List.append_nil] at hdays
    exact hunit d.weeks 'W' _ _ hdays
  · have hseconds := hunit (d.seconds.map secondsNum) 'S' [] [] (List.Sublist.refl _)
    rw [List.append_nil] at hseconds
    have := hunit d.hours 'H' _ _ (hunit d.minutes 'M' _ _ hseconds)
    rwa [← List.append_assoc] at this
  · rw [← reading_text, h.scanned.letters_text]
    congr 2
    have hmarker : d.reading.marker = true ↔ ¬ d.reading.time.map DurationField.letter = [] := by
      simp only [reading, hasTime, Bool.or_eq_true, Option.isSome_iff_ne_none, unitField, List.map_eq_nil_iff,
        List.append_eq_nil_iff, Option.toList_eq_nil_iff, Option.map_eq_none_iff]
      tauto
    by_cases hnil : d.reading.time.map DurationField.letter = []
    · rw [if_pos hnil, if_neg fun hm => hmarker.mp hm hnil]
    · rw [if_neg hnil, if_pos (hmarker.mpr hnil)]

/-- A unit comes first, or not at all. -/
theorem unitField_of_sublist {fs : List DurationField} {c : Char} {cs : List Char}
    (h : List.Sublist (fs.map DurationField.letter) (c :: cs)) :
    ∃ num gs, fs = unitField num c ++ gs ∧ List.Sublist (gs.map DurationField.letter) cs := by
  cases fs with
  | nil => exact ⟨none, [], rfl, List.nil_sublist _⟩
  | cons f fs =>
    rw [List.map_cons] at h
    cases h with
    | cons _ h => exact ⟨none, f :: fs, rfl, h⟩
    | cons_cons _ h => exact ⟨some f.num, fs, rfl, h⟩

def secondsParts (num : List Char) : List Char × Option (List Char) :=
  match splitOnce '.' num with
  | some (i, f) => (i, some f)
  | none => (num, none)

theorem secondsNum_parts (num : List Char) : secondsNum (secondsParts num) = num := by
  unfold secondsParts
  split
  · next h => exact (splitOnce_eq_some.mp h).1.symm
  · rfl

theorem secondsParts_whole {num i : List Char} {allow : Bool} (h : secondsParts num = (i, none)) (htext : SecondsText allow num) :
    Number i := by
  unfold secondsParts at h
  split at h
  · cases h
  · next hsplit =>
    obtain ⟨rfl, -⟩ := Prod.mk.inj h
    rcases htext with hnumber | ⟨-, i, f, rfl, -⟩
    · exact hnumber
    · exact absurd (List.mem_append_right _ List.mem_cons_self) (splitOnce_eq_none.mp hsplit)

theorem secondsParts_fraction {num i f : List Char} {allow : Bool} (h : secondsParts num = (i, some f))
    (htext : SecondsText allow num) : allow ∧ AllDigits i ∧ AllDigits f ∧ (i ≠ [] ∨ f ≠ []) := by
  unfold secondsParts at h
  split at h
  · next i' f' hsplit =>
    obtain ⟨rfl, heqf⟩ := Prod.mk.inj h
    obtain rfl := Option.some.inj heqf
    obtain ⟨heq, -⟩ := splitOnce_eq_some.mp hsplit
    rcases htext with hnumber | ⟨hallow, i, f, rfl, hi, hf, hne⟩
    · exact absurd (heq ▸ List.mem_append_right _ List.mem_cons_self) (AllDigits.not_point hnumber.2)
    · rw [splitOnce_eq_some.mpr ⟨rfl, AllDigits.not_point hi⟩] at hsplit
      obtain ⟨rfl, rfl⟩ := Prod.mk.inj (Option.some.inj hsplit)
      exact ⟨hallow, hi, hf, hne⟩
  · cases h

/-- What the loops read with its units in order is a duration of the grammar. -/
theorem of_scanned {t : DurationText} (h : t.Scanned form) (horder : InOrder t.text) :
    ∃ d : Duration, d.Allowed form ∧ d.reading = t := by
  obtain ⟨hdate, htime, hmarker⟩ := h.ordered horder
  obtain ⟨weeks, fs, hweeks, hfs⟩ := unitField_of_sublist hdate
  obtain ⟨days, fs', rfl, hfs'⟩ := unitField_of_sublist hfs
  obtain rfl := List.map_eq_nil_iff.mp (List.sublist_nil.mp hfs')
  obtain ⟨hours, gs, hhours, hgs⟩ := unitField_of_sublist htime
  obtain ⟨minutes, gs', rfl, hgs'⟩ := unitField_of_sublist hgs
  obtain ⟨seconds, gs'', rfl, hgs''⟩ := unitField_of_sublist hgs'
  obtain rfl := List.map_eq_nil_iff.mp (List.sublist_nil.mp hgs'')
  rw [List.append_nil] at hweeks hhours
  have hnum : (seconds.map secondsParts).map secondsNum = seconds := by
    cases seconds with
    | none => rfl
    | some num => exact congrArg some (secondsNum_parts num)
  have hreading : (Duration.mk t.sign weeks days hours minutes (seconds.map secondsParts)).reading = t := by
    have htimes : unitField hours 'H' ++ unitField minutes 'M' ++ unitField seconds 'S' = t.time := by
      rw [hhours, List.append_assoc]
    have hhas : (Duration.mk t.sign weeks days hours minutes (seconds.map secondsParts)).hasTime = t.marker := by
      cases hm : t.marker with
      | true =>
        have hne := hmarker hm
        rw [← htimes] at hne
        cases hours <;> cases minutes <;> cases seconds <;> first | rfl | exact absurd rfl hne
      | false =>
        have hnil := h.marker hm
        rw [← htimes] at hnil
        cases hours <;> cases minutes <;> cases seconds <;> first | rfl | cases hnil
    unfold reading
    rw [hhas]
    dsimp only
    rw [hnum, htimes, ← hweeks]
  refine ⟨_, ?_, hreading⟩
  have hdates : ∀ {num letter}, (⟨num, letter⟩ : DurationField) ∈ unitField weeks 'W' ++ unitField days 'D' →
      DurationField.Date form ⟨num, letter⟩ := fun hf => h.date _ (hweeks ▸ hf)
  have htimes : ∀ {num letter}, (⟨num, letter⟩ : DurationField) ∈ unitField hours 'H' ++ (unitField minutes 'M' ++ unitField seconds 'S') →
      DurationField.Time form ⟨num, letter⟩ := fun hf => h.time _ (hhours ▸ hf)
  have hseconds : ∀ {num}, seconds = some num → SecondsText form.allowFraction num := by
    intro num hs
    have hfield := htimes (List.mem_append_right _ (List.mem_append_right _ (mem_unitField.mpr ⟨hs, rfl⟩)))
    rcases hfield with ⟨-, hl | hl⟩ | ⟨htext, -⟩
    · cases hl
    · cases hl
    · exact htext
  have hwhole : ∀ {num letter}, DurationField.Time form ⟨num, letter⟩ → letter ≠ 'S' → Number num := by
    rintro num letter (⟨hnumber, -⟩ | ⟨-, hl⟩) hne
    · exact hnumber
    · exact absurd hl hne
  refine ⟨h.sign, ?_, ?_, ?_, ?_, ?_, ?_, ?_⟩
  · intro num hw
    have hfield := hdates (List.mem_append_left _ (mem_unitField.mpr ⟨hw, rfl⟩))
    rcases hfield.2 with ⟨-, hallow⟩ | hl
    · exact ⟨hallow, hfield.1⟩
    · cases hl
  · exact fun num hd => (hdates (List.mem_append_right _ (mem_unitField.mpr ⟨hd, rfl⟩))).1
  · exact fun num hh => hwhole (htimes (List.mem_append_left _ (mem_unitField.mpr ⟨hh, rfl⟩))) (by decide)
  · exact fun num hm =>
      hwhole (htimes (List.mem_append_right _ (List.mem_append_left _ (mem_unitField.mpr ⟨hm, rfl⟩)))) (by decide)
  · intro i hs
    obtain ⟨num, hs, hparts⟩ := Option.map_eq_some_iff.mp hs
    exact secondsParts_whole hparts (hseconds hs)
  · intro i f hs
    obtain ⟨num, hs, hparts⟩ := Option.map_eq_some_iff.mp hs
    exact secondsParts_fraction hparts (hseconds hs)
  · have hunit := h.unit
    rw [hweeks, hhours] at hunit
    cases weeks <;> cases days <;> cases hours <;> cases minutes <;> cases seconds <;> first | rfl | exact absurd rfl hunit

end Duration

/-! ## Accepted texts and durations -/

/-- The number of nanoseconds that a text denotes. -/
def Denotes (form : DurationForm) (raw : List Char) (n : Int) : Prop :=
  ∃ d : Duration, d.Allowed form ∧ d.text = raw ∧ n = d.nanos ∧ InI128 n

/-- Units that repeat, are out of order or are missing after the `T`; and the least `i128`, whose magnitude is not one. -/
def Misread (form : DurationForm) (raw : List Char) : Prop :=
  ∃ t : DurationText, t.Scanned form ∧ t.text = raw ∧
    (¬ InOrder raw ∧ (t.total : Int) ≤ i128Max ∨ InOrder raw ∧ t.nanos = -(i128Max + 1))

theorem denotes_of_scanned {t : DurationText} (h : t.Scanned form) (horder : InOrder t.text) (hin : InI128 t.nanos) :
    Denotes form t.text t.nanos := by
  obtain ⟨d, hd, rfl⟩ := Duration.of_scanned h horder
  exact ⟨d, hd, (Duration.reading_text d).symm, hd.reading_nanos, hin⟩

/-- A signed total fits, but for the least number, when the total does. -/
theorem DurationText.inI128_iff (t : DurationText) : InI128 t.nanos ↔ (t.total : Int) ≤ i128Max ∨ t.nanos = -(i128Max + 1) := by
  unfold DurationText.nanos InI128 i128Max
  split <;> omega

theorem DurationText.nanos_ne_min {t : DurationText} (h : (t.total : Int) ≤ i128Max) : t.nanos ≠ -(i128Max + 1) := by
  unfold DurationText.nanos
  unfold i128Max at *
  split <;> omega

theorem parseDurationNanos_denotes_iff (form : DurationForm) (raw : List Char) :
    (∀ n, parseDurationNanos raw form = some n ↔ Denotes form raw n) ↔ ¬ Misread form raw := by
  constructor
  · rintro h ⟨t, ht, rfl, ⟨horder, hle⟩ | ⟨horder, hmin⟩⟩
    · obtain ⟨d, hd, htext, -⟩ := (h t.nanos).mp (parseDurationNanos_iff.mpr ⟨t, ht, rfl, rfl, hle⟩)
      exact horder (htext ▸ hd.inOrder)
    · have hdenotes := denotes_of_scanned ht horder (t.inI128_iff.mpr (.inr hmin))
      obtain ⟨t', -, -, hnanos, hle⟩ := parseDurationNanos_iff.mp ((h t.nanos).mpr hdenotes)
      exact DurationText.nanos_ne_min hle (hnanos ▸ hmin)
  · intro h n
    constructor
    · intro hparse
      obtain ⟨t, ht, rfl, rfl, hle⟩ := parseDurationNanos_iff.mp hparse
      have horder : InOrder t.text := by
        by_contra horder
        exact h ⟨t, ht, rfl, .inl ⟨horder, hle⟩⟩
      exact denotes_of_scanned ht horder (t.inI128_iff.mpr (.inl hle))
    · rintro ⟨d, hd, rfl, rfl, hin⟩
      have htext := Duration.reading_text d
      rw [← hd.reading_nanos] at hin ⊢
      refine parseDurationNanos_iff.mpr ⟨d.reading, hd.scanned, htext, rfl, ?_⟩
      refine (d.reading.inI128_iff.mp hin).resolve_right fun hmin => ?_
      exact h ⟨d.reading, hd.scanned, htext, .inr ⟨hd.inOrder, hmin⟩⟩

/-! ## Cycles -/

/-- An interval, bare or after `R/` with a count. -/
inductive CycleOf (raw : List Char) : Option (List Char) → List Char → Prop
  | bare : CycleOf raw none (trimmed raw)
  | counted {count interval : List Char} (h : trimmed raw = 'R' :: count ++ '/' :: interval) (hcount : '/' ∉ count) :
    CycleOf raw (some count) interval

def Count (count : Option (List Char)) : Prop := ∀ digits, count = some digits → AllDigits digits

/-- The number of whole milliseconds that a cycle denotes. -/
def CycleDenotes (raw : List Char) (ms : Nat) : Prop :=
  ∃ count interval n, CycleOf raw count interval ∧ Count count ∧ Denotes .bpmnTimer (trimmed interval) n ∧
    ms = (n / 1000000).toNat ∧ ms < 18446744073709551616

/-- A count that is not a number, or an interval whose units are not in order. -/
def MisreadCycle (raw : List Char) : Prop :=
  ∃ count interval, ∃ t : DurationText, CycleOf raw count interval ∧ t.Scanned .bpmnTimer ∧ t.text = trimmed interval ∧
    t.total / 1000000 < 18446744073709551616 ∧ ¬ (Count count ∧ InOrder (trimmed interval))

theorem DurationText.Scanned.nanos_bpmn {t : DurationText} (h : t.Scanned .bpmnTimer) : t.nanos = t.total := by
  rcases h.sign with hs | ⟨hallow, -⟩
  · rw [DurationText.nanos, hs, if_neg nofun]
  · cases hallow

theorem parseDurationMillis_iff {ms : Nat} :
    parseDurationMillis raw = some ms ↔ ∃ t : DurationText, t.Scanned .bpmnTimer ∧ t.text = trimmed raw ∧
      ms = t.total / 1000000 ∧ ms < 18446744073709551616 := by
  have hmillis : ∀ t : DurationText, (t.total : Int).tdiv 1000000 = (t.total / 1000000 : Nat) := fun t => rfl
  unfold parseDurationMillis
  constructor
  · intro h
    obtain ⟨n, hn, h⟩ := Option.bind_eq_some_iff.mp h
    obtain ⟨t, ht, htext, rfl, -⟩ := parseDurationNanos_iff.mp hn
    rw [ht.nanos_bpmn, hmillis] at h
    unfold tryU64 at h
    split at h
    · obtain rfl := Option.some.inj h
      exact ⟨t, ht, htext, Int.toNat_natCast _, by omega⟩
    · cases h
  · rintro ⟨t, ht, htext, rfl, hlt⟩
    refine Option.bind_eq_some_iff.mpr ⟨t.nanos, parseDurationNanos_iff.mpr ⟨t, ht, htext, rfl, ?_⟩, ?_⟩
    · unfold i128Max
      omega
    · rw [ht.nanos_bpmn, hmillis, tryU64, if_pos (by omega), Int.toNat_natCast]

theorem mem_dropWhile {c : Char} {s : List Char} (hc : isWhiteSpace c = false) (h : c ∈ s) : c ∈ s.dropWhile isWhiteSpace := by
  rw [← List.takeWhile_append_dropWhile (p := isWhiteSpace) (l := s)] at h
  refine (List.mem_append.mp h).resolve_left fun hmem => ?_
  rw [List.mem_takeWhile_imp hmem] at hc
  cases hc

theorem mem_trimmed {c : Char} {s : List Char} (hc : isWhiteSpace c = false) (h : c ∈ s) : c ∈ trimmed s :=
  List.mem_reverse.mpr (mem_dropWhile hc (List.mem_reverse.mpr (mem_dropWhile hc h)))

theorem DurationText.Scanned.not_slash {t : DurationText} (h : t.Scanned form) : '/' ∉ t.text := by
  have htexts : ∀ {fs : List DurationField}, (∀ f ∈ fs, (∀ c ∈ f.num, isNumeral c) ∧ f.letter.isAlpha) → '/' ∉ texts fs := by
    intro fs hfs hmem
    obtain ⟨f, hf, hmem⟩ := List.mem_flatMap.mp hmem
    rcases List.mem_append.mp hmem with hmem | hmem
    · exact absurd ((hfs f hf).1 _ hmem) (by decide)
    · rw [List.mem_singleton] at hmem
      have hletter := (hfs f hf).2
      rw [← hmem] at hletter
      cases hletter
  have hdate := htexts fun f hf => ⟨(h.date f hf).field.1, (h.date f hf).field.2.1⟩
  have htime := htexts fun f hf => (h.time f hf).field
  have hsign : '/' ∉ t.sign.toList := by
    rcases h.sign with hs | ⟨-, hs | hs⟩ <;> rw [hs] <;> decide
  unfold DurationText.text DurationText.body
  simp only [List.mem_append, List.mem_cons, not_or]
  refine ⟨hsign, by decide, hdate, ?_⟩
  split
  · exact List.not_mem_cons_of_ne_of_not_mem (by decide) htime
  · exact List.not_mem_nil

theorem CycleOf.unique {count count' : Option (List Char)} {interval interval' : List Char} (h : CycleOf raw count interval)
    (h' : CycleOf raw count' interval') (hslash : '/' ∉ trimmed interval) (hslash' : '/' ∉ trimmed interval') :
    count = count' ∧ interval = interval' := by
  cases h with
  | bare =>
    cases h' with
    | bare => exact ⟨rfl, rfl⟩
    | counted heq hcount =>
      exact absurd (mem_trimmed (by decide) (heq ▸ List.mem_append_right _ List.mem_cons_self)) hslash
  | counted heq hcount =>
    cases h' with
    | bare => exact absurd (mem_trimmed (by decide) (heq ▸ List.mem_append_right _ List.mem_cons_self)) hslash'
    | counted heq' hcount' =>
      rw [heq, List.cons_append, List.cons_append, List.cons.injEq] at heq'
      have hne : ∀ {s : List Char}, '/' ∉ s → ∀ c ∈ s, (c != '/') = true := fun hs c hc => bne_iff_ne.mpr fun h => hs (h ▸ hc)
      obtain ⟨rfl, -, rfl⟩ := cut_inj (hne hcount) (hne hcount') rfl rfl heq'.2
      exact ⟨rfl, rfl⟩

theorem parseCycleMillis_iff {ms : Nat} :
    parseCycleMillis raw = some ms ↔ ∃ count interval, ∃ t : DurationText, CycleOf raw count interval ∧
      t.Scanned .bpmnTimer ∧ t.text = trimmed interval ∧ ms = t.total / 1000000 ∧ ms < 18446744073709551616 := by
  unfold parseCycleMillis
  dsimp only
  constructor
  · intro h
    split at h
    · next rep interval hsplit =>
      obtain ⟨heq, hrep⟩ := splitOnce_eq_some.mp hsplit
      split at h
      · next hhead =>
        obtain ⟨count, rfl⟩ := List.head?_eq_some_iff.mp hhead
        obtain ⟨t, ht⟩ := parseDurationMillis_iff.mp h
        exact ⟨some count, interval, t, .counted heq (List.not_mem_of_not_mem_cons hrep), ht⟩
      · cases h
    · obtain ⟨t, ht⟩ := parseDurationMillis_iff.mp h
      exact ⟨none, trimmed raw, t, .bare, ht⟩
  · rintro ⟨count, interval, t, hcycle, ht, htext, hms⟩
    have hparse := parseDurationMillis_iff.mpr ⟨t, ht, htext, hms⟩
    cases hcycle with
    | bare =>
      have hnone : splitOnce '/' (trimmed raw) = none :=
        splitOnce_eq_none.mpr fun hmem => ht.not_slash (htext ▸ mem_trimmed (by decide) hmem)
      rw [hnone]
      exact hparse
    | counted heq hcount =>
      rw [splitOnce_eq_some.mpr ⟨heq, List.not_mem_cons_of_ne_of_not_mem (by decide) hcount⟩]
      exact hparse

theorem cycleDenotes_of {count : Option (List Char)} {interval : List Char} {t : DurationText} (h : CycleOf raw count interval)
    (ht : t.Scanned .bpmnTimer) (htext : t.text = trimmed interval) (hlt : t.total / 1000000 < 18446744073709551616)
    (hcount : Count count) (horder : InOrder (trimmed interval)) : CycleDenotes raw (t.total / 1000000) := by
  refine ⟨count, interval, t.nanos, h, hcount, ?_, ?_, hlt⟩
  · rw [← htext] at horder ⊢
    refine denotes_of_scanned ht horder (t.inI128_iff.mpr (.inl ?_))
    unfold i128Max
    omega
  · rw [ht.nanos_bpmn]
    omega

theorem parseCycleMillis_denotes_iff (raw : List Char) :
    (∀ ms, parseCycleMillis raw = some ms ↔ CycleDenotes raw ms) ↔ ¬ MisreadCycle raw := by
  constructor
  · rintro h ⟨count, interval, t, hcycle, ht, htext, hlt, hwrong⟩
    obtain ⟨count', interval', n, hcycle', hcount, ⟨d, hd, htext', -⟩, -⟩ :=
      (h _).mp (parseCycleMillis_iff.mpr ⟨count, interval, t, hcycle, ht, htext, rfl, hlt⟩)
    have hslash' : '/' ∉ trimmed interval' := by
      rw [← htext', ← Duration.reading_text]
      exact hd.scanned.not_slash
    obtain ⟨rfl, rfl⟩ := hcycle.unique hcycle' (htext ▸ ht.not_slash) hslash'
    exact hwrong ⟨hcount, htext' ▸ hd.inOrder⟩
  · intro h ms
    constructor
    · intro hparse
      obtain ⟨count, interval, t, hcycle, ht, htext, rfl, hlt⟩ := parseCycleMillis_iff.mp hparse
      obtain ⟨hcount, horder⟩ : Count count ∧ InOrder (trimmed interval) := by
        by_contra hwrong
        exact h ⟨count, interval, t, hcycle, ht, htext, hlt, hwrong⟩
      exact cycleDenotes_of hcycle ht htext hlt hcount horder
    · rintro ⟨count, interval, n, hcycle, -, ⟨d, hd, htext, rfl, -⟩, hms, hlt⟩
      rw [← hd.reading_nanos, hd.scanned.nanos_bpmn] at hms
      have hmillis : ms = d.reading.total / 1000000 := by omega
      exact parseCycleMillis_iff.mpr ⟨count, interval, d.reading, hcycle, hd.scanned,
        (Duration.reading_text d).trans htext, hmillis, hlt⟩

/-- Durations and cycles are read as they are written, but for the texts that are misread. -/
theorem durations_read_iff (form : DurationForm) (raw : List Char) :
    ((∀ n, parseDurationNanos raw form = some n ↔ Denotes form raw n) ↔ ¬ Misread form raw) ∧
      ((∀ ms, parseCycleMillis raw = some ms ↔ CycleDenotes raw ms) ↔ ¬ MisreadCycle raw) :=
  ⟨parseDurationNanos_denotes_iff form raw, parseCycleMillis_denotes_iff raw⟩

/-- `PT1S2H` is two hours and a second. -/
theorem durations_out_of_order :
    ¬ ∀ form raw, (∀ n, parseDurationNanos raw form = some n ↔ Denotes form raw n) ∧
      ∀ ms, parseCycleMillis raw = some ms ↔ CycleDenotes raw ms := by
  intro h
  have hparse : parseDurationNanos "PT1S2H".toList .bpmnTimer = some 7201000000000 := by decide +kernel
  obtain ⟨d, hd, htext, -⟩ := ((h .bpmnTimer "PT1S2H".toList).1 _).mp hparse
  exact absurd (htext ▸ hd.inOrder) (by decide +kernel)

end NanoBpm
