import Mathlib.Algebra.Order.Ring.Nat
import Mathlib.Data.List.TakeWhile
import Mathlib.Logic.Relation

/-!
# Scanning a text at its bytes

A text is scanned by the offsets of its bytes and cut at such offsets, which works only where one character ends and the next
begins. The bytes that a scan looks for are those of ASCII characters, so that it stops between characters.
-/

namespace Utf8

def bytes (s : List Char) : List UInt8 := s.flatMap String.utf8EncodeChar

def size (s : List Char) : Nat := (s.map Char.utf8Size).sum

/-- How many bytes a scan passes. -/
def scanWhile (p : UInt8 → Bool) : List UInt8 → Nat
  | [] => 0
  | b :: bs => if p b then scanWhile p bs + 1 else 0

/-- The characters from an offset on; `none` inside of a character. -/
def dropBytes : List Char → Nat → Option (List Char)
  | s, 0 => some s
  | [], _ + 1 => none
  | c :: s, n + 1 => if c.utf8Size ≤ n + 1 then dropBytes s (n + 1 - c.utf8Size) else none

/-- The characters up to an offset; `none` inside of a character. -/
def takeBytes : List Char → Nat → Option (List Char)
  | _, 0 => some []
  | [], _ + 1 => none
  | c :: s, n + 1 => if c.utf8Size ≤ n + 1 then (takeBytes s (n + 1 - c.utf8Size)).map (c :: ·) else none

def slice (s : List Char) (i j : Nat) : Option (List Char) :=
  if i ≤ j then (dropBytes s i).bind (takeBytes · (j - i)) else none

/-- The offset of the first occurrence of a text in another. -/
def find (needle : List Char) : List Char → Option Nat
  | [] => if needle.isEmpty then some 0 else none
  | c :: s => if needle <+: c :: s then some 0 else (find needle s).map (c.utf8Size + ·)

variable {s t a b needle : List Char} {c : Char} {n : Nat}

@[simp]
theorem bytes_nil : bytes [] = [] := rfl

@[simp]
theorem bytes_append (a b : List Char) : bytes (a ++ b) = bytes a ++ bytes b := List.flatMap_append

theorem bytes_cons (c : Char) (s : List Char) : bytes (c :: s) = String.utf8EncodeChar c ++ bytes s := List.flatMap_cons

@[simp]
theorem size_nil : size [] = 0 := rfl

@[simp]
theorem size_cons (c : Char) (s : List Char) : size (c :: s) = c.utf8Size + size s := by
  simp [size]

@[simp]
theorem size_append (a b : List Char) : size (a ++ b) = size a + size b := by
  simp [size]

@[simp]
theorem length_bytes (s : List Char) : (bytes s).length = size s := by
  induction s with
  | nil => rfl
  | cons c s ih => rw [bytes_cons, List.length_append, String.length_utf8EncodeChar, ih, size_cons]

theorem drop_bytes (a b : List Char) : (bytes (a ++ b)).drop (size a) = bytes b := by
  rw [bytes_append, ← length_bytes, List.drop_left]

theorem size_pos (h : s ≠ []) : 0 < size s := by
  cases s with
  | nil => exact absurd rfl h
  | cons c s =>
    have := c.utf8Size_pos
    rw [size_cons]
    omega

/-! ## Cutting -/

@[simp]
theorem dropBytes_zero (s : List Char) : dropBytes s 0 = some s := by
  cases s <;> rfl

@[simp]
theorem takeBytes_zero (s : List Char) : takeBytes s 0 = some [] := by
  cases s <;> rfl

theorem dropBytes_cons (h : c.utf8Size ≤ n) : dropBytes (c :: s) n = dropBytes s (n - c.utf8Size) := by
  have hpos := c.utf8Size_pos
  obtain ⟨k, rfl⟩ : ∃ k, n = k + 1 := ⟨n - 1, by omega⟩
  rw [dropBytes, if_pos h]

theorem takeBytes_cons (h : c.utf8Size ≤ n) : takeBytes (c :: s) n = (takeBytes s (n - c.utf8Size)).map (c :: ·) := by
  have hpos := c.utf8Size_pos
  obtain ⟨k, rfl⟩ : ∃ k, n = k + 1 := ⟨n - 1, by omega⟩
  rw [takeBytes, if_pos h]

theorem dropBytes_append (a b : List Char) (n : Nat) : dropBytes (a ++ b) (size a + n) = dropBytes b n := by
  induction a with
  | nil => simp
  | cons c a ih =>
    rw [List.cons_append, size_cons, dropBytes_cons (by omega), ← ih]
    congr 1
    omega

theorem takeBytes_append (a b : List Char) : takeBytes (a ++ b) (size a) = some a := by
  induction a with
  | nil => simp
  | cons c a ih =>
    rw [List.cons_append, size_cons, takeBytes_cons (by omega), Nat.add_sub_cancel_left, ih]
    rfl

theorem dropBytes_inside (h0 : 0 < n) (hc : n < c.utf8Size) : dropBytes (c :: s) n = none := by
  obtain ⟨k, rfl⟩ : ∃ k, n = k + 1 := ⟨n - 1, by omega⟩
  rw [dropBytes, if_neg (by omega)]

@[simp]
theorem slice_append (a b c : List Char) : slice (a ++ (b ++ c)) (size a) (size a + size b) = some b := by
  rw [slice, if_pos (by omega), ← Nat.add_zero (size a), dropBytes_append, dropBytes_zero, Nat.add_zero, Nat.add_sub_cancel_left]
  exact takeBytes_append b c

/-- A cut inside of a character. -/
theorem slice_inside {j : Nat} (h0 : 0 < n) (hc : n < c.utf8Size) : slice (a ++ c :: s) (size a + n) j = none := by
  rw [slice, dropBytes_append, dropBytes_inside h0 hc]
  split <;> rfl

theorem slice_rest (a b : List Char) : slice (a ++ b) (size a) (size (a ++ b)) = some b := by
  have h := slice_append a b []
  rwa [List.append_nil, ← size_append] at h

/-! ## Finding -/

/-- A text that is not found before its end, also where it begins another. -/
def Free (needle a : List Char) : Prop := ∀ k < a.length, ¬ needle <+: (a ++ needle).drop k

theorem find_append (hne : needle ≠ []) (h : Free needle a) : find needle (a ++ (needle ++ b)) = some (size a) := by
  induction a with
  | nil =>
    cases needle with
    | nil => exact absurd rfl hne
    | cons x needle =>
      have hp : x :: needle <+: x :: (needle ++ b) := List.prefix_append (x :: needle) b
      rw [List.nil_append, List.cons_append, find, if_pos hp]
      rfl
  | cons c a ih =>
    have hfirst : ¬ needle <+: c :: (a ++ (needle ++ b)) := by
      intro hp
      have hcut : c :: a ++ needle <+: c :: a ++ (needle ++ b) := by
        rw [← List.append_assoc]
        exact List.prefix_append _ _
      exact h 0 (by simp) (List.prefix_of_prefix_length_le hp hcut (by simp; omega))
    have hrest : Free needle a := fun k hk => h (k + 1) (by simpa using hk)
    rw [List.cons_append, find, if_neg hfirst, ih hrest]
    simp

theorem free_singleton (h : c ∉ a) : Free [c] a := by
  intro k hk hp
  rw [List.drop_append_of_le_length hk.le, List.drop_eq_getElem_cons hk] at hp
  have hc : c = a[k] := List.cons_prefix_cons.mp hp |>.1
  exact h (hc ▸ List.getElem_mem hk)

/-- A text cannot begin in the last characters before `xxy` and end in it. -/
theorem free_of_no_occurrence {x y : Char} (hxy : x ≠ y) (h : ¬ [x, x, y] <:+: a) : Free [x, x, y] a := by
  intro k hk hp
  rw [List.drop_append_of_le_length hk.le] at hp
  have hsub : a.drop k <:+: a := List.drop_suffix k a |>.isInfix
  revert hp hsub
  have hne : a.drop k ≠ [] := by simpa using hk
  revert hne
  generalize a.drop k = d
  intro hne hp hsub
  match d, hne, hp, hsub with
  | [p], _, hp, _ =>
    simp only [List.cons_append, List.nil_append, List.cons_prefix_cons] at hp
    exact hxy hp.2.2.1.symm
  | [p, q], _, hp, _ =>
    simp only [List.cons_append, List.nil_append, List.cons_prefix_cons] at hp
    exact hxy hp.2.2.1.symm
  | p :: q :: r :: d, _, hp, hsub =>
    simp only [List.cons_append, List.cons_prefix_cons] at hp
    obtain ⟨rfl, rfl, rfl, -⟩ := hp
    exact h ((List.prefix_append [x, x, y] d).isInfix.trans hsub)

/-- A text is found at its first occurrence or does not occur. -/
theorem find_cases (hne : needle ≠ []) (s : List Char) :
    (∃ a b, s = a ++ (needle ++ b) ∧ Free needle a) ∨ find needle s = none := by
  induction s with
  | nil =>
    right
    cases needle with
    | nil => exact absurd rfl hne
    | cons x needle => rfl
  | cons c s ih =>
    by_cases hp : needle <+: c :: s
    · obtain ⟨b, hb⟩ := hp
      exact .inl ⟨[], b, hb.symm, fun k hk => absurd hk (by simp)⟩
    · rcases ih with ⟨a, b, rfl, ha⟩ | hnone
      · refine .inl ⟨c :: a, b, rfl, fun k hk hk' => ?_⟩
        cases k with
        | zero =>
          refine hp (hk'.trans ?_)
          rw [List.drop_zero, ← List.cons_append, ← List.append_assoc]
          exact List.prefix_append _ _
        | succ k => exact ha k (by simpa using hk) hk'
      · right
        rw [find, if_neg hp, hnone]
        rfl

/-! ## Passing -/

theorem utf8EncodeChar_ascii (h : c.toNat < 128) : String.utf8EncodeChar c = [c.toUInt8] := by
  have hle : c.val.toNat ≤ 0x7f := by
    have : c.val.toNat = c.toNat := rfl
    omega
  unfold String.utf8EncodeChar
  simp only [hle, if_true]
  rfl

theorem utf8Size_ascii (h : c.toNat < 128) : c.utf8Size = 1 := by
  rw [← String.length_utf8EncodeChar, utf8EncodeChar_ascii h, List.length_singleton]

theorem bytes_ascii_cons (h : c.toNat < 128) (s : List Char) : bytes (c :: s) = c.toUInt8 :: bytes s := by
  rw [bytes_cons, utf8EncodeChar_ascii h, List.singleton_append]

theorem utf8Size_wide (h : 128 ≤ c.toNat) : 1 < c.utf8Size := by
  have hpos := c.utf8Size_pos
  have hone : c.utf8Size ≠ 1 := fun h1 => by
    have hle := UInt32.le_iff_toNat_le.mp (Char.utf8Size_eq_one_iff.mp h1)
    have hval : c.val.toNat = c.toNat := rfl
    have h127 : (127 : UInt32).toNat = 127 := rfl
    omega
  omega

theorem le_of_mem_utf8EncodeChar (h : 128 ≤ c.toNat) {x : UInt8} (hx : x ∈ String.utf8EncodeChar c) : 128 ≤ x.toNat := by
  have hgt : ¬ c.val.toNat ≤ 0x7f := by
    have : c.val.toNat = c.toNat := rfl
    omega
  unfold String.utf8EncodeChar at hx
  simp only [hgt, if_false] at hx
  split at hx
  · rcases List.mem_cons.mp hx with rfl | hx
    · simp only [UInt8.toNat_ofNat']
      omega
    · rw [List.mem_singleton.mp hx]
      simp only [UInt8.toNat_ofNat']
      omega
  · split at hx
    all_goals
      simp only [List.mem_cons, List.not_mem_nil, or_false] at hx
      obtain rfl | rfl | hx := hx
      · simp only [UInt8.toNat_ofNat']
        omega
      · simp only [UInt8.toNat_ofNat']
        omega
    · subst hx
      simp only [UInt8.toNat_ofNat']
      omega
    · obtain rfl | rfl := hx
      all_goals
        simp only [UInt8.toNat_ofNat']
        omega

/-- A test of bytes that all bytes of a character pass or none does. -/
def Uniform (p : UInt8 → Bool) (P : Char → Bool) : Prop := ∀ c, ∀ x ∈ String.utf8EncodeChar c, p x = P c

/-- A byte is that of a character. -/
def isByte (d : Char) (x : UInt8) : Bool := x == d.toUInt8

def byteBetween (lo hi : Char) (x : UInt8) : Bool := decide (lo.toUInt8 ≤ x) && decide (x ≤ hi.toUInt8)

theorem toNat_toUInt8 (h : c.toNat < 128) : c.toUInt8.toNat = c.toNat := by
  have hval : c.toUInt8.toNat = c.toNat % 256 := UInt32.toNat_toUInt8 c.val
  omega

namespace Uniform

variable {p q : UInt8 → Bool} {P Q : Char → Bool} {d lo hi : Char}

/-- What holds of the byte of an ASCII character, and of no byte of another. -/
theorem of_ascii (hascii : ∀ c, c.toNat < 128 → p c.toUInt8 = P c) (hp : ∀ x : UInt8, 128 ≤ x.toNat → p x = false)
    (hP : ∀ c, 128 ≤ c.toNat → P c = false) : Uniform p P := by
  intro c x hx
  rcases Nat.lt_or_ge c.toNat 128 with hc | hc
  · rw [utf8EncodeChar_ascii hc, List.mem_singleton] at hx
    rw [hx, hascii c hc]
  · rw [hp x (le_of_mem_utf8EncodeChar hc hx), hP c hc]

theorem isByte (hd : d.toNat < 128) : Uniform (isByte d) (· == d) := by
  have hdn := toNat_toUInt8 hd
  refine of_ascii (fun c hc => ?_) (fun x hx => ?_) fun c hc => ?_
  · have hcn := toNat_toUInt8 hc
    rw [Bool.eq_iff_iff]
    simp only [Utf8.isByte, beq_iff_eq, ← UInt8.toNat_inj, ← Char.toNat_inj]
    omega
  · simp only [Utf8.isByte, beq_eq_false_iff_ne, ne_eq, ← UInt8.toNat_inj]
    omega
  · simp only [beq_eq_false_iff_ne, ne_eq, ← Char.toNat_inj]
    omega

theorem byteBetween (hlo : lo.toNat < 128) (hhi : hi.toNat < 128) :
    Uniform (byteBetween lo hi) fun c => decide (lo ≤ c) && decide (c ≤ hi) := by
  have hln := toNat_toUInt8 hlo
  have hhn := toNat_toUInt8 hhi
  have hle (a b : Char) : a ≤ b ↔ a.toNat ≤ b.toNat := UInt32.le_iff_toNat_le
  refine of_ascii (fun c hc => ?_) (fun x hx => ?_) fun c hc => ?_
  · have hcn := toNat_toUInt8 hc
    simp only [Utf8.byteBetween, UInt8.le_iff_toNat_le, hle, hln, hhn, hcn]
  · simp only [Utf8.byteBetween, UInt8.le_iff_toNat_le, Bool.and_eq_false_iff, decide_eq_false_iff_not]
    omega
  · simp only [hle, Bool.and_eq_false_iff, decide_eq_false_iff_not]
    omega

theorem or (hp : Uniform p P) (hq : Uniform q Q) : Uniform (fun x => p x || q x) fun c => P c || Q c :=
  fun c x hx => congrArg₂ _ (hp c x hx) (hq c x hx)

theorem not (hp : Uniform p P) : Uniform (fun x => !p x) fun c => !P c :=
  fun c x hx => congrArg _ (hp c x hx)

/-- The first byte of a text stands for its first character. -/
theorem head (hp : Uniform p P) (s : List Char) : (bytes s).head?.any p = s.head?.any P := by
  cases s with
  | nil => rfl
  | cons c s =>
    rw [bytes_cons]
    cases henc : String.utf8EncodeChar c with
    | nil => exact absurd henc String.utf8EncodeChar_ne_nil
    | cons x xs => exact hp c x (henc ▸ List.mem_cons_self)

theorem scanWhile_encode (hp : Uniform p P) (c : Char) (bs : List UInt8) :
    scanWhile p (String.utf8EncodeChar c ++ bs) = if P c then c.utf8Size + scanWhile p bs else 0 := by
  have hall := hp c
  rw [← String.length_utf8EncodeChar]
  have hne := @String.utf8EncodeChar_ne_nil c
  revert hall hne
  generalize String.utf8EncodeChar c = xs
  intro hall hne
  split
  · next hP =>
    clear hne
    induction xs with
    | nil => simp
    | cons x xs ih =>
      rw [List.cons_append, scanWhile, hall x List.mem_cons_self, if_pos hP, ih fun y hy => hall y (List.mem_cons_of_mem _ hy),
        List.length_cons]
      omega
  · next hP =>
    cases xs with
    | nil => exact absurd rfl hne
    | cons x xs => rw [List.cons_append, scanWhile, hall x List.mem_cons_self, if_neg hP]

/-- A scan over bytes stops where one over characters does. -/
theorem scanWhile_bytes (hp : Uniform p P) (s : List Char) : scanWhile p (bytes s) = size (s.takeWhile P) := by
  induction s with
  | nil => rfl
  | cons c s ih =>
    rw [bytes_cons, hp.scanWhile_encode, ih, List.takeWhile_cons]
    cases P c <;> simp

theorem scanWhile_append (hp : Uniform p P) (ha : ∀ c ∈ a, P c) (hb : ∀ c ∈ b.head?, P c = false) :
    scanWhile p (bytes (a ++ b)) = size a := by
  rw [hp.scanWhile_bytes, List.takeWhile_append_of_pos ha]
  cases b with
  | nil => simp
  | cons c b => rw [List.takeWhile_cons, hb c rfl]; simp

end Uniform

/-! ## Offsets -/

/-- What is left of a text at an offset between two of its characters. -/
def At (s : List Char) (i : Nat) (rest : List Char) : Prop := ∃ before, s = before ++ rest ∧ i = size before

namespace At

variable {rest : List Char} {i : Nat}

theorem start (s : List Char) : At s 0 s := ⟨[], rfl, rfl⟩

theorem append (h : At s i (a ++ b)) : At s (i + size a) b := by
  obtain ⟨before, rfl, rfl⟩ := h
  exact ⟨before ++ a, by simp, by simp⟩

theorem cons (h : At s i (c :: b)) : At s (i + c.utf8Size) b := by
  have := append (show At s i ([c] ++ b) from h)
  simpa using this

theorem drop (h : At s i rest) : (bytes s).drop i = bytes rest := by
  obtain ⟨before, rfl, rfl⟩ := h
  exact drop_bytes before rest

theorem getElem? (h : At s i rest) : (bytes s)[i]? = (bytes rest).head? := by
  rw [← h.drop, List.head?_drop]

theorem size_eq (h : At s i rest) : i + size rest = size s := by
  obtain ⟨before, rfl, rfl⟩ := h
  simp

theorem slice (h : At s i (a ++ b)) : slice s i (i + size a) = some a := by
  obtain ⟨before, rfl, rfl⟩ := h
  exact slice_append before a b

theorem slice_end (h : At s i rest) : Utf8.slice s i (size s) = some rest := by
  obtain ⟨before, rfl, rfl⟩ := h
  exact slice_rest before rest

theorem lt (h : At s i rest) (hne : rest ≠ []) : i < size s := by
  have := h.size_eq
  have := size_pos hne
  omega

theorem inside {j : Nat} (h : At s i (c :: b)) (h0 : 0 < n) (hc : n < c.utf8Size) : Utf8.slice s (i + n) j = none := by
  obtain ⟨before, rfl, rfl⟩ := h
  exact slice_inside h0 hc

end At

/-! ## Loops -/

section Loops

variable {α ε : Type} {stop i next : Nat} {endless e : ε} {body : Nat → Except ε (Option α × Nat)} {x : Option α}
  {r : Except ε (List α)}

/-- A loop over the offsets below `stop`, and what its rounds find; `endless` when its rounds run out. -/
def collect (stop : Nat) (endless : ε) (body : Nat → Except ε (Option α × Nat)) : Nat → Nat → Except ε (List α)
  | rounds, i =>
    if i < stop then
      match rounds with
      | 0 => .error endless
      | rounds + 1 =>
        match body i with
        | .error e => .error e
        | .ok (x, next) => (collect stop endless body rounds next).map (x.toList ++ ·)
    else .ok []

/-- What the loop ends with, in as many rounds as there are bytes. -/
def Loops (stop : Nat) (endless : ε) (body : Nat → Except ε (Option α × Nat)) (i : Nat) (r : Except ε (List α)) : Prop :=
  ∀ rounds, stop - i ≤ rounds → collect stop endless body rounds i = r

namespace Loops

theorem done (h : stop ≤ i) : Loops stop endless body i (.ok []) := by
  intro rounds _
  unfold collect
  rw [if_neg (by omega)]

theorem step (hi : i < stop) (hbody : body i = .ok (x, next)) (hnext : i < next) (h : Loops stop endless body next r) :
    Loops stop endless body i (r.map (x.toList ++ ·)) := by
  intro rounds hrounds
  cases rounds with
  | zero => omega
  | succ rounds =>
    unfold collect
    rw [if_pos hi]
    simp only [hbody]
    rw [h rounds (by omega)]

theorem fault (hi : i < stop) (hbody : body i = .error e) : Loops stop endless body i (.error e) := by
  intro rounds hrounds
  cases rounds with
  | zero => omega
  | succ rounds =>
    unfold collect
    rw [if_pos hi]
    simp only [hbody]

theorem result (h : Loops stop endless body i r) : collect stop endless body stop i = r := h stop (by omega)

end Loops

end Loops

/-! ## Readers -/

section Readers

open Relation

variable {α ε : Type} {body : List Char → Nat → Except ε (Option α × Nat)} {Step : List Char → List Char → Prop}
  {Done Stray : List Char → Prop} {Bad : ε → Prop} {endless : ε} {i : Nat} {rest : List Char}

/-- A loop whose rounds, between two characters, go from what is left of the text to less of it. -/
structure Reader (body : List Char → Nat → Except ε (Option α × Nat)) (Step : List Char → List Char → Prop) : Prop where
  step : ∀ {s t rest : List Char} {i : Nat}, At s i t → Step t rest → ∃ x j, body s i = .ok (x, j) ∧ i < j ∧ At s j rest
  shorter : ∀ {t rest : List Char}, Step t rest → rest.length < t.length

abbrev LoopsFrom (body : List Char → Nat → Except ε (Option α × Nat)) (endless : ε) (s : List Char) (i : Nat)
    (r : Except ε (List α)) : Prop :=
  Loops (bytes s).length endless (body s) i r

namespace LoopsFrom

theorem done (h : At s i []) : LoopsFrom body endless s i (.ok []) := by
  have := h.size_eq
  exact Loops.done (by rw [length_bytes]; simpa using this.ge)

theorem lt (h : At s i t) (ht : t ≠ []) : i < (bytes s).length := by
  rw [length_bytes]
  exact h.lt ht

end LoopsFrom

namespace Reader

/-- Rounds that the loop takes, and what they find. -/
theorem steps (hreader : Reader body Step) (h : At s i t) (hsteps : ReflTransGen Step t rest) :
    ∃ j xs, At s j rest ∧ ∀ r, LoopsFrom body endless s j r → LoopsFrom body endless s i (r.map (xs ++ ·)) := by
  induction hsteps using ReflTransGen.head_induction_on generalizing i with
  | refl =>
    refine ⟨i, [], h, fun r hr => ?_⟩
    cases r <;> exact hr
  | @head t u hstep _ ih =>
    obtain ⟨x, k, heq, hik, hk⟩ := hreader.step h hstep
    obtain ⟨j, xs, hj, hloop⟩ := ih hk
    have hne : t ≠ [] := by
      rintro rfl
      exact absurd (hreader.shorter hstep) (by simp)
    refine ⟨j, x.toList ++ xs, hj, fun r hr => ?_⟩
    have hround := Loops.step (LoopsFrom.lt h hne) heq hik (hloop r hr)
    cases r with
    | error e => exact hround
    | ok ys =>
      have happend : (Except.ok (x.toList ++ (xs ++ ys)) : Except ε _) = (Except.ok ys).map (x.toList ++ xs ++ ·) := by
        rw [← List.append_assoc]
        rfl
      exact happend ▸ hround

/-- Rounds lead to an end, to a place where the loop strays or to an error. -/
theorem cases (hreader : Reader body Step) (hnil : Done [])
    (hcases : ∀ t, t ≠ [] → (∃ rest, Step t rest) ∨ Done t ∨ Stray t ∨ ∀ s i, At s i t → ∃ e, Bad e ∧ body s i = .error e)
    (t : List Char) : (∃ e, ReflTransGen Step t e ∧ Done e) ∨ (∃ e, ReflTransGen Step t e ∧ Stray e) ∨
      ∀ s i, At s i t → ∃ e, Bad e ∧ LoopsFrom body endless s i (.error e) := by
  induction hk : t.length using Nat.strong_induction_on generalizing t with
  | h k ih =>
    by_cases ht : t = []
    · exact .inl ⟨[], ht ▸ .refl, hnil⟩
    · rcases hcases t ht with ⟨rest, hstep⟩ | hdone | hstray | hbad
      · rcases ih rest.length (hk ▸ hreader.shorter hstep) rest rfl with ⟨e, hsteps, he⟩ | ⟨e, hsteps, he⟩ | hbad
        · exact .inl ⟨e, .head hstep hsteps, he⟩
        · exact .inr (.inl ⟨e, .head hstep hsteps, he⟩)
        · refine .inr (.inr fun s i h => ?_)
          obtain ⟨j, xs, hj, hloop⟩ := hreader.steps h (.single hstep)
          obtain ⟨e, he, hloops⟩ := hbad s j hj
          exact ⟨e, he, hloop _ hloops⟩
      · exact .inl ⟨t, .refl, hdone⟩
      · exact .inr (.inl ⟨t, .refl, hstray⟩)
      · refine .inr (.inr fun s i h => ?_)
        obtain ⟨e, he, heq⟩ := hbad s i h
        exact ⟨e, he, .fault (LoopsFrom.lt h ht) heq⟩

end Reader

end Readers

end Utf8
