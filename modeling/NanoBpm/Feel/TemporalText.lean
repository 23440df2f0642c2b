import NanoBpm.Feel.Arithmetic
import NanoBpm.Feel.DurationGrammar

/-!
# Temporal values that are parsed

The parsers make values of their types' ranges, which is all that the arithmetic needs.
-/

namespace NanoBpm.FeelExpr

/-! ## What the parsers make -/

variable {checks : Bool} {s : List Char}

theorem parseInt_fits {fits : Int → Bool} {n : Int} (h : parseInt fits s = some n) : fits n :=
  (Option.filter_eq_some_iff.mp h).2

theorem parseInt_nonneg {fits : Int → Bool} {n : Int} (hs : '-' ∉ s) (h : parseInt fits s = some n) : 0 ≤ n := by
  have hvalue := (Option.filter_eq_some_iff.mp h).1
  split at hvalue
  · exact absurd List.mem_cons_self hs
  all_goals
    obtain ⟨k, -, rfl⟩ := Option.map_eq_some_iff.mp hvalue
    omega

theorem not_mem_of_mem_splitOnP {p : Char → Bool} {piece : List Char} (h : piece ∈ s.splitOnP p) : ∀ c ∈ piece, p c = false := by
  induction s generalizing piece with
  | nil =>
    rw [List.splitOnP_nil, List.mem_singleton] at h
    simp [h]
  | cons a s ih =>
    rw [List.splitOnP_cons_eq_if_modifyHead] at h
    split at h
    · rcases List.mem_cons.mp h with rfl | h
      · simp
      · exact ih h
    · next ha =>
      obtain ⟨hd, tl, hsplit⟩ := List.exists_cons_of_ne_nil (List.splitOnP_ne_nil p s)
      rw [hsplit, List.modifyHead_cons] at h
      rw [hsplit] at ih
      rcases List.mem_cons.mp h with rfl | h
      · exact List.forall_mem_cons.mpr ⟨Bool.eq_false_iff.mpr ha, ih List.mem_cons_self⟩
      · exact ih (List.mem_cons_of_mem _ h)

theorem Date.supported_of_new {y : Int} {m d : Nat} {v : Date} (hy : SupportedYear y) (h : Date.new y m d = some v) :
    v.Supported := by
  have hnew := h
  unfold Date.new at h
  split at h
  · cases h
  · obtain rfl := Option.some.inj h
    exact ⟨hy, hnew⟩

theorem Date.supported_of_parse {d : Date} (h : Date.parse s = some d) : d.Supported := by
  unfold Date.parse at h
  dsimp only at h
  split at h
  · next y m day hsplit =>
    obtain ⟨n, hn, h⟩ := Option.bind_eq_some_iff.mp h
    obtain ⟨m', -, h⟩ := Option.bind_eq_some_iff.mp h
    obtain ⟨day', -, h⟩ := Option.bind_eq_some_iff.mp h
    refine Date.supported_of_new ?_ h
    have hdash : '-' ∉ y := by
      intro hmem
      have := not_mem_of_mem_splitOnP (hsplit ▸ List.mem_cons_self) _ hmem
      cases this
    have hpos := parseInt_nonneg hdash hn
    have hfits : InI32 n := of_decide_eq_true (parseInt_fits hn)
    unfold InI32 i32Min i32Max at hfits
    unfold SupportedYear i32Min i32Max
    split <;> omega
  · cases h

theorem inI32_i32 {n k : Int} (h : i32 checks n = .value k) : InI32 k := by
  unfold i32 at h
  split at h
  · cases h
  · obtain rfl := Parsed.value.inj h
    exact inI32_wrapI32 n

theorem inI64_i64 {n k : Int} (h : i64 checks n = .value k) : InI64 k := by
  unfold i64 at h
  split at h
  · cases h
  · obtain rfl := Parsed.value.inj h
    exact inI64_wrapI64 n

theorem inI32_parseOffset {k : Int} (h : parseOffset checks s = .value k) : InI32 k := by
  obtain ⟨⟨neg, rest⟩, -, h⟩ := Parsed.bind_eq_value.mp h
  dsimp only at h
  split at h
  · obtain ⟨n, -, h⟩ := Parsed.bind_eq_value.mp h
    obtain ⟨m, -, h⟩ := Parsed.bind_eq_value.mp h
    obtain ⟨a, -, h⟩ := Parsed.bind_eq_value.mp h
    obtain ⟨b, -, h⟩ := Parsed.bind_eq_value.mp h
    obtain ⟨secs, hsecs, h⟩ := Parsed.bind_eq_value.mp h
    split at h
    · exact inI32_i32 h
    · obtain rfl := Parsed.value.inj h
      exact inI32_i32 hsecs
  · cases h

theorem inI32_findOffset {before clock : List Char} {offset : Option Int}
    (h : findOffset checks before s = .value (clock, offset)) : ∀ o, offset = some o → InI32 o := by
  induction s generalizing before with
  | nil =>
    obtain ⟨-, rfl⟩ := Prod.mk.inj (Parsed.value.inj h)
    exact nofun
  | cons c rest ih =>
    unfold findOffset at h
    split at h
    · split at h
      · next seconds hseconds =>
        obtain ⟨-, rfl⟩ := Prod.mk.inj (Parsed.value.inj h)
        rintro o ⟨⟩
        exact inI32_parseOffset hseconds
      · exact ih h
      · cases h
    · exact ih h

theorem inI32_splitOffset {clock : List Char} {offset : Option Int} (h : splitOffset checks s = .value (clock, offset)) :
    ∀ o, offset = some o → InI32 o := by
  unfold splitOffset at h
  split at h
  · obtain ⟨-, rfl⟩ := Prod.mk.inj (Parsed.value.inj h)
    rintro o ⟨⟩
    decide
  · exact inI32_findOffset h

theorem length_truncate {len : Nat} {t : List Char} (h : truncate len s = .value t) : t.length ≤ len := by
  induction s generalizing len t with
  | nil =>
    cases len <;> obtain rfl := Parsed.value.inj h <;> exact Nat.zero_le _
  | cons c cs ih =>
    unfold truncate at h
    split at h
    · obtain rfl := Parsed.value.inj h
      exact Nat.zero_le _
    · split at h
      · obtain ⟨rest, hrest, h⟩ := Parsed.bind_eq_value.mp h
        obtain rfl := Parsed.value.inj h
        have hlen := ih hrest
        have hsize := c.utf8Size_pos
        rw [List.length_cons]
        omega
      · cases h

theorem parseDecimal_lt {n : Nat} (h : parseDecimal s = some n) : n < 10 ^ s.length := by
  rw [parseDecimal_eq] at h
  split at h
  · next hnumber =>
    obtain rfl := Option.some.inj h
    exact Decimal.value_lt hnumber.2
  · cases h

theorem parseU32_lt {n : Nat} (h : parseU32 s = some n) : n < 10 ^ s.length := by
  have hvalue := (Option.filter_eq_some_iff.mp h).1
  split at hvalue
  · exact (parseDecimal_lt hvalue).trans_le (Nat.pow_le_pow_right (by decide) (Nat.le_succ _))
  · exact parseDecimal_lt hvalue

theorem nano_lt_of_parseSeconds {second nano : Nat} (h : parseSeconds s = .value (second, nano)) : nano < 1000000000 := by
  unfold parseSeconds at h
  split at h
  · obtain ⟨sec, -, h⟩ := Parsed.bind_eq_value.mp h
    obtain ⟨cut, hcut, h⟩ := Parsed.bind_eq_value.mp h
    obtain ⟨n, hn, h⟩ := Parsed.bind_eq_value.mp h
    obtain ⟨-, rfl⟩ := Prod.mk.inj (Parsed.value.inj h)
    exact (parseU32_lt (Parsed.ofOption_eq_value.mp hn)).trans_le (Nat.pow_le_pow_right (by decide) (length_truncate hcut))
  · obtain ⟨sec, -, h⟩ := Parsed.bind_eq_value.mp h
    obtain ⟨-, rfl⟩ := Prod.mk.inj (Parsed.value.inj h)
    decide

theorem Time.ranged_of_parse {t : Time} (h : Time.parse checks s = .value t) : t.Ranged := by
  obtain ⟨⟨clock, offset⟩, hoffset, h⟩ := Parsed.bind_eq_value.mp h
  dsimp only at h
  split at h
  · obtain ⟨hour, -, h⟩ := Parsed.bind_eq_value.mp h
    obtain ⟨minute, -, h⟩ := Parsed.bind_eq_value.mp h
    obtain ⟨_, -, h⟩ := Parsed.bind_eq_value.mp h
    obtain ⟨⟨second, nano⟩, hseconds, h⟩ := Parsed.bind_eq_value.mp h
    obtain ⟨_, hrange, h⟩ := Parsed.bind_eq_value.mp h
    obtain rfl := Parsed.value.inj h
    obtain ⟨hhour, hminute, hsecond⟩ := of_decide_eq_true (Parsed.require_eq_value.mp hrange)
    exact ⟨hhour, hminute, hsecond, nano_lt_of_parseSeconds hseconds, inI32_splitOffset hoffset⟩
  · cases h

theorem YmScan.inI64_step {st st' : YmScan} {c : Char} (hst : InI64 st.months) (h : st.step checks c = .value st') :
    InI64 st'.months := by
  unfold step at h
  split at h
  · obtain rfl := Parsed.value.inj h
    exact hst
  · split at h
    · obtain ⟨n, -, h⟩ := Parsed.bind_eq_value.mp h
      obtain ⟨k, -, h⟩ := Parsed.bind_eq_value.mp h
      obtain ⟨months, hmonths, h⟩ := Parsed.bind_eq_value.mp h
      obtain rfl := Parsed.value.inj h
      exact inI64_i64 hmonths
    · split at h
      · obtain ⟨n, -, h⟩ := Parsed.bind_eq_value.mp h
        obtain ⟨months, hmonths, h⟩ := Parsed.bind_eq_value.mp h
        obtain rfl := Parsed.value.inj h
        exact inI64_i64 hmonths
      · cases h

theorem YmScan.inI64_foldlM {st st' : YmScan} (hst : InI64 st.months) (h : s.foldlM (YmScan.step checks) st = .value st') :
    InI64 st'.months := by
  induction s generalizing st with
  | nil =>
    obtain rfl := Parsed.value.inj h
    exact hst
  | cons c s ih =>
    rw [List.foldlM_cons] at h
    obtain ⟨st₁, hstep, h⟩ := Parsed.bind_eq_value.mp h
    exact ih (YmScan.inI64_step hst hstep) h

theorem YmScan.inI64_signed {st : YmScan} {neg : Bool} {n : Int} (hst : InI64 st.months) (h : st.signed checks neg = .value n) :
    InI64 n := by
  unfold signed at h
  split at h
  · exact inI64_i64 h
  · obtain rfl := Parsed.value.inj h
    exact hst

theorem YmDuration.inI64_of_parse {d : YmDuration} (h : YmDuration.parse checks s = .value d) : InI64 d.months := by
  obtain ⟨body, -, h⟩ := Parsed.bind_eq_value.mp h
  obtain ⟨_, -, h⟩ := Parsed.bind_eq_value.mp h
  obtain ⟨st, hst, h⟩ := Parsed.bind_eq_value.mp h
  obtain ⟨_, -, h⟩ := Parsed.bind_eq_value.mp h
  obtain ⟨months, hmonths, h⟩ := Parsed.bind_eq_value.mp h
  obtain rfl := Parsed.value.inj h
  exact YmScan.inI64_signed (YmScan.inI64_foldlM (by decide) hst) hmonths

theorem DtDuration.inI128_of_parse {d : DtDuration} (h : DtDuration.parse s = some d) : InI128 d.nanos := by
  obtain ⟨n, hn, rfl⟩ := Option.map_eq_some_iff.mp h
  obtain ⟨t, -, -, rfl, hle⟩ := parseDurationNanos_iff.mp hn
  exact t.inI128_iff.mpr (.inl hle)

theorem made_of_parseDuration {v : Plain} (h : parseDuration checks s = .value v) : v.toVal.Made := by
  have hdayTime : Parsed.ofOption ((DtDuration.parse s).map .dtDur) = .value v → v.toVal.Made := by
    intro hparse
    obtain ⟨d, hd, rfl⟩ := Option.map_eq_some_iff.mp (Parsed.ofOption_eq_value.mp hparse)
    exact .dtDur (DtDuration.inI128_of_parse hd)
  unfold parseDuration at h
  split at h
  · next d hd =>
    split at h
    · obtain rfl := Parsed.value.inj h
      exact .ymDur (YmDuration.inI64_of_parse hd)
    · exact hdayTime h
  · exact hdayTime h
  · cases h

theorem made_of_parseTemporal {v : Plain} (h : parseTemporal checks s = .value v) : v.toVal.Made := by
  unfold parseTemporal at h
  split at h
  · exact made_of_parseDuration h
  · split at h
    · obtain ⟨d, hd, h⟩ := Parsed.bind_eq_value.mp h
      obtain rfl := Parsed.value.inj h
      obtain ⟨p, -, hd⟩ := Parsed.bind_eq_value.mp hd
      obtain ⟨date, hdate, hd⟩ := Parsed.bind_eq_value.mp hd
      obtain ⟨time, htime, hd⟩ := Parsed.bind_eq_value.mp hd
      obtain rfl := Parsed.value.inj hd
      exact .dateTime (Date.supported_of_parse (Parsed.ofOption_eq_value.mp hdate)) (Time.ranged_of_parse htime)
    · split at h
      · obtain ⟨t, ht, h⟩ := Parsed.bind_eq_value.mp h
        obtain rfl := Parsed.value.inj h
        exact .time (Time.ranged_of_parse ht)
      · obtain ⟨d, hd, h⟩ := Parsed.bind_eq_value.mp h
        obtain rfl := Parsed.value.inj h
        exact .date (Date.supported_of_parse (Parsed.ofOption_eq_value.mp hd))

/-! ## Arithmetic on what is parsed -/

/-- Sums, differences and the laws of durations after a date-time hold exactly where the results fit, and the offsets of
times that are subtracted agree. -/
theorem arithmetic_exact_iff {l r : FeelVal} {t : DateTime} {d d' : DtDuration} (hl : l.Made) (hr : r.Made)
    (ht : (FeelVal.dateTime t).Made) (hd : (FeelVal.dtDur d).Made) (hd' : (FeelVal.dtDur d').Made) (hlt : d.nanos < d'.nanos) :
    (∀ s v, parseTemporal checks s = .value v → v.toVal.Made) ∧
      (AddExact checks l r ↔ AddFits l r) ∧ (SubExact checks l r ↔ SubFits l r) ∧ (Lawful checks t d d' ↔ LawFits t d d') := by
  refine ⟨fun s v h => made_of_parseTemporal h, add_exact_iff hl hr, sub_exact_iff hl hr, ?_⟩
  cases ht with
  | dateTime hdate htime =>
    cases hd with
    | dtDur hn =>
      cases hd' with
      | dtDur hn' => exact lawful_iff hdate htime hn hn' hlt

theorem arithmetic_exact_iff_second :
    AddExact true (.date ⟨2024, 2, 29⟩) (.ymDur ⟨12⟩) ∧
      Lawful true ⟨⟨2024, 2, 29⟩, Builtins.midnight⟩ ⟨1000000000⟩ ⟨2000000000⟩ := by
  have hday : (Date.mk 2024 2 29).Supported := ⟨⟨by decide, by decide⟩, by decide⟩
  have hd : (FeelVal.dtDur ⟨1000000000⟩).Made := .dtDur (by decide)
  have hd' : (FeelVal.dtDur ⟨2000000000⟩).Made := .dtDur (by decide)
  obtain ⟨-, hadd, -, hlaw⟩ := @arithmetic_exact_iff true _ _ _ _ _ (.date hday) (.ymDur (show InI64 12 by decide))
    (.dateTime (d := ⟨⟨2024, 2, 29⟩, Builtins.midnight⟩) hday ranged_midnight) hd hd' (by decide)
  exact ⟨hadd.mpr (show InI32 _ by decide), hlaw.mpr ⟨by decide, by decide⟩⟩

/-- The last day of the year 2147483647 and a day are the first day of the year -2147483648. -/
theorem arithmetic_wraps :
    ¬ ∀ checks s s' l r, parseTemporal checks s = .value l → parseTemporal checks s' = .value r →
      AddExact checks l.toVal r.toVal := by
  intro h
  have hdate : Date.parse "2147483647-12-31".toList = some ⟨2147483647, 12, 31⟩ := by decide +kernel
  have hleft : parseTemporal false "2147483647-12-31".toList = .value (.date ⟨2147483647, 12, 31⟩) := by
    rw [parseTemporal, if_neg (by decide +kernel), if_neg (by decide +kernel), if_neg (by decide +kernel), hdate]
    rfl
  have hmonths : YmDuration.parse false "P1D".toList = .refused := by decide +kernel
  have hnanos : DtDuration.parse "P1D".toList = some ⟨86400000000000⟩ := by decide +kernel
  have hright : parseTemporal false "P1D".toList = .value (.dtDur ⟨86400000000000⟩) := by
    rw [parseTemporal, if_pos (by decide +kernel), parseDuration, hmonths, hnanos]
    rfl
  have hsum : addDate ⟨2147483647, 12, 31⟩ ⟨86400000000000⟩ = ⟨-2147483648, 1, 1⟩ := by decide +kernel
  have hadd : add (.date ⟨2147483647, 12, 31⟩) (.dtDur ⟨86400000000000⟩) = .ok (.date ⟨-2147483648, 1, 1⟩) := by
    rw [← hsum]
    rfl
  rcases (h false _ _ _ _ hleft hright).exact _ hadd with hnull | hexact
  · cases hnull
  · exact absurd hexact.number (by decide +kernel)

end NanoBpm.FeelExpr
