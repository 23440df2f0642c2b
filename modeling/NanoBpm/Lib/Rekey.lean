import NanoBpm.Lib.Values
import Mathlib.Algebra.BigOperators.Group.List.Basic
import Mathlib.Order.MinMax

/-!
# Re-keyed tables

The entries of a table are filed again under other keys. The new key of an entry need not be its own, so an entry is
merged into what the earlier ones left under it: nothing is lost, but what was under two keys may come to be under one.
-/

namespace Std.ExtTreeMap

variable {κ β : Type} {cmp : κ → κ → Ordering} [Std.TransCmp cmp] [Std.LawfulEqCmp cmp]

/-- An insertion exchanges the weight under its key. -/
theorem sum_vals_insert (m : Std.ExtTreeMap κ β cmp) (k : κ) (v : β) (w : β → Nat) :
    ((m.insert k v).vals.map w).sum + (m[k]?.map w).getD 0 = (m.vals.map w).sum + w v := by
  have hinsert := ((perm_vals_insert m k v).map w).sum_nat
  cases hk : m[k]? with
  | none =>
    rw [hinsert, erase_of_getElem?_eq_none hk]
    simp [Nat.add_comm]
  | some old =>
    have hold := ((perm_vals_of_getElem? hk).map w).sum_nat
    rw [hinsert, hold]
    simp only [List.map_cons, List.sum_cons, Option.map_some, Option.getD_some]
    omega

/-- An insertion exchanges the value under its key. -/
theorem exists_mem_vals_insert {m : Std.ExtTreeMap κ β cmp} {k : κ} {v : β} {p : β → Prop} :
    (∃ x ∈ (m.insert k v).vals, p x) ↔ p v ∨ ∃ x ∈ (m.erase k).vals, p x := by
  simp [(perm_vals_insert m k v).mem_iff]

theorem exists_mem_vals_of_getElem? {m : Std.ExtTreeMap κ β cmp} {k : κ} {p : β → Prop} :
    (∃ x ∈ m.vals, p x) ↔ (∃ x ∈ m[k]?, p x) ∨ ∃ x ∈ (m.erase k).vals, p x := by
  cases hk : m[k]? with
  | none => simp [erase_of_getElem?_eq_none hk]
  | some v => simp [(perm_vals_of_getElem? hk).mem_iff]

omit [Std.LawfulEqCmp cmp] in
theorem vals_map {γ : Type} (m : Std.ExtTreeMap κ β cmp) (f : β → γ) : (m.map fun _ v => f v).vals = m.vals.map f := by
  rw [vals, vals, toList_map, List.map_map, List.map_map]
  rfl

omit [Std.LawfulEqCmp cmp] in
/-- A change of the values that leaves alone which of them are looked at changes their names one by one. -/
theorem map_filter_vals_map {γ : Type} {m : Std.ExtTreeMap κ β cmp} {f : β → β} {look : β → Bool} {name : β → γ}
    {rename : γ → γ} (hlook : ∀ v, look (f v) = look v) (hname : ∀ v, look v = true → name (f v) = rename (name v)) :
    ((m.map fun _ v => f v).vals.filter look).map name = ((m.vals.filter look).map name).map rename := by
  have hsame : look ∘ f = look := funext hlook
  rw [vals_map, List.filter_map, List.map_map, List.map_map, hsame]
  exact List.map_congr_left fun v hv => hname v (List.mem_filter.1 hv).2

omit [Std.LawfulEqCmp cmp] in
/-- A change of the values that nothing of what is looked at shows. -/
theorem filterMap_filter_vals_map {γ : Type} {m : Std.ExtTreeMap κ β cmp} {f : β → β} {look : β → Bool} {name : β → Option γ}
    (hlook : ∀ v, look (f v) = look v) (hname : ∀ v, name (f v) = name v) :
    ((m.map fun _ v => f v).vals.filter look).filterMap name = (m.vals.filter look).filterMap name := by
  have hsame : look ∘ f = look := funext hlook
  have hsame' : name ∘ f = name := funext hname
  rw [vals_map, List.filter_map, List.filterMap_map, hsame, hsame']

end Std.ExtTreeMap

namespace NanoBpm

variable {κ κ' α β : Type} {cmp : κ → κ → Ordering} [Std.TransCmp cmp] [Std.LawfulEqCmp cmp]

/-- The entries are filed under the keys `f` gives them, each merged by `g` into what is there. -/
def rekey (f : κ' → κ) (g : Option β → α → β) (entries : List (κ' × α)) (m : Std.ExtTreeMap κ β cmp) :
    Std.ExtTreeMap κ β cmp :=
  entries.foldl (fun acc entry => acc.insert (f entry.1) (g acc[f entry.1]? entry.2)) m

variable {f : κ' → κ} {g : Option β → α → β}

omit [Std.LawfulEqCmp cmp] in
@[simp] theorem rekey_nil (m : Std.ExtTreeMap κ β cmp) : rekey f g [] m = m := rfl

omit [Std.LawfulEqCmp cmp] in
theorem rekey_cons (entry : κ' × α) (entries : List (κ' × α)) (m : Std.ExtTreeMap κ β cmp) :
    rekey f g (entry :: entries) m = rekey f g entries (m.insert (f entry.1) (g m[f entry.1]? entry.2)) := rfl

/-- Under a key is the merge of the entries that were given it. -/
theorem getElem?_rekey [DecidableEq κ] (entries : List (κ' × α)) (m : Std.ExtTreeMap κ β cmp) (k : κ) :
    (rekey f g entries m)[k]? =
      (entries.filter (f ·.1 = k)).foldl (fun under entry => some (g under entry.2)) m[k]? := by
  induction entries generalizing m with
  | nil => rfl
  | cons entry entries ih =>
    rw [rekey_cons, ih]
    by_cases hkey : f entry.1 = k
    · subst hkey
      simp
    · have hne : ¬ cmp (f entry.1) k = .eq := fun h => hkey (Std.LawfulEqCmp.eq_of_compare h)
      simp [Std.ExtTreeMap.getElem?_insert, hkey, hne]

omit [Std.LawfulEqCmp cmp] in
/-- A merge of entries is there as soon as one of them is. -/
theorem isSome_foldl_merge (entries : List (κ' × α)) (under : Option β) :
    (entries.foldl (fun under entry => some (g under entry.2)) under).isSome ↔ under.isSome ∨ entries ≠ [] := by
  induction entries generalizing under with
  | nil => simp
  | cons entry entries ih => simp [ih]

/-- The keys are those that were given to an entry. -/
theorem mem_rekey {entries : List (κ' × α)} {k : κ} :
    k ∈ rekey f g entries (∅ : Std.ExtTreeMap κ β cmp) ↔ ∃ entry ∈ entries, f entry.1 = k := by
  classical
  rw [Std.ExtTreeMap.mem_iff_isSome_getElem?, getElem?_rekey, isSome_foldl_merge]
  simp [List.filter_eq_nil_iff]

/-- A merge that adds weights keeps the whole weight. -/
theorem sum_vals_rekey {w : β → Nat} {v : α → Nat} (h : ∀ under a, w (g under a) = (under.map w).getD 0 + v a)
    (entries : List (κ' × α)) (m : Std.ExtTreeMap κ β cmp) :
    ((rekey f g entries m).vals.map w).sum = (m.vals.map w).sum + (entries.map (v ·.2)).sum := by
  induction entries generalizing m with
  | nil => simp
  | cons entry entries ih =>
    have hstep := Std.ExtTreeMap.sum_vals_insert m (f entry.1) (g m[f entry.1]? entry.2) w
    rw [h] at hstep
    rw [rekey_cons, ih, List.map_cons, List.sum_cons]
    omega

/-- A merge that has a property when one of its parts has it loses none and makes up none. -/
theorem exists_mem_vals_rekey {p : β → Prop} {q : α → Prop} (h : ∀ under a, p (g under a) ↔ (∃ v ∈ under, p v) ∨ q a)
    (entries : List (κ' × α)) (m : Std.ExtTreeMap κ β cmp) :
    (∃ v ∈ (rekey f g entries m).vals, p v) ↔ (∃ v ∈ m.vals, p v) ∨ ∃ entry ∈ entries, q entry.2 := by
  induction entries generalizing m with
  | nil => simp
  | cons entry entries ih =>
    rw [rekey_cons, ih, Std.ExtTreeMap.exists_mem_vals_insert, h,
      Std.ExtTreeMap.exists_mem_vals_of_getElem? (k := f entry.1) (m := m), List.exists_mem_cons_iff]
    simp only [or_assoc, or_left_comm]

/-- What is kept of two values under one key when the smaller one is. -/
def keepLeast [LinearOrder β] (under : Option β) (b : β) : β :=
  match under with
  | some old => min old b
  | none => b

theorem foldl_keepLeast [LinearOrder β] (entries : List (κ' × β)) {b least : β} (h :
    entries.foldl (fun under entry => some (keepLeast under entry.2)) (some b) = some least) :
    (least = b ∨ ∃ entry ∈ entries, entry.2 = least) ∧ least ≤ b ∧ ∀ entry ∈ entries, least ≤ entry.2 := by
  induction entries generalizing b with
  | nil =>
    cases h
    simp
  | cons entry entries ih =>
    obtain ⟨hfrom, hle, hall⟩ := ih h
    have hmin : least ≤ b ∧ least ≤ entry.2 := le_min_iff.1 hle
    refine ⟨?_, hmin.1, List.forall_mem_cons.2 ⟨hmin.2, hall⟩⟩
    rcases hfrom with hfrom | ⟨other, hother, heq⟩
    · rcases min_choice b entry.2 with hb | hentry
      · exact .inl (hfrom.trans hb)
      · exact .inr ⟨entry, List.mem_cons_self, (hfrom.trans hentry).symm⟩
    · exact .inr ⟨other, List.mem_cons_of_mem _ hother, heq⟩

/-- A value is kept under its new key if and only if no smaller one was given the same key. -/
theorem getElem?_rekey_keepLeast [LinearOrder β] {entries : List (κ' × β)} {entry : κ' × β} (h : entry ∈ entries) :
    (rekey f keepLeast entries (∅ : Std.ExtTreeMap κ β cmp))[f entry.1]? = some entry.2 ↔
      ∀ other ∈ entries, f other.1 = f entry.1 → entry.2 ≤ other.2 := by
  classical
  rw [getElem?_rekey, Std.ExtTreeMap.getElem?_empty]
  have hmem : ∀ other, other ∈ entries.filter (f ·.1 = f entry.1) ↔ other ∈ entries ∧ f other.1 = f entry.1 := by
    simp
  have hself := (hmem entry).2 ⟨h, rfl⟩
  cases hlist : entries.filter (f ·.1 = f entry.1) with
  | nil =>
    rw [hlist] at hself
    cases hself
  | cons first rest =>
    rw [hlist] at hmem hself
    obtain ⟨least, hleast⟩ : ∃ least, rest.foldl (fun under entry => some (keepLeast under entry.2)) (some first.2) = some least := by
      exact Option.isSome_iff_exists.1 ((isSome_foldl_merge rest (some first.2)).2 (.inl rfl))
    obtain ⟨hfrom, hfirst, hrest⟩ := foldl_keepLeast rest hleast
    have hall : ∀ other ∈ first :: rest, least ≤ other.2 := List.forall_mem_cons.2 ⟨hfirst, hrest⟩
    have hin : ∃ other ∈ first :: rest, other.2 = least := by
      rcases hfrom with hfrom | ⟨other, hother, heq⟩
      · exact ⟨first, List.mem_cons_self, hfrom.symm⟩
      · exact ⟨other, List.mem_cons_of_mem _ hother, heq⟩
    have hfold : (first :: rest).foldl (fun under entry => some (keepLeast under entry.2)) none = some least := hleast
    rw [hfold]
    constructor
    · intro heq other hother hkey
      rw [← Option.some.inj heq]
      exact hall other ((hmem other).2 ⟨hother, hkey⟩)
    · intro hle
      obtain ⟨other, hother, heq⟩ := hin
      have hother' := (hmem other).1 hother
      rw [← heq, le_antisymm (hle other hother'.1 hother'.2) (heq ▸ hall entry hself)]

end NanoBpm
