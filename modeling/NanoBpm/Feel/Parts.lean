import NanoBpm.Feel.Eval
import NanoBpm.Lib.Results
import Mathlib.Data.List.InsertIdx

/-!
# The parts of a value

A property of values is structural if scalars have it and a list, a context or a range has it exactly when its parts do.
Whatever a builtin or an access returns has the structural properties that its arguments have.
-/

namespace NanoBpm.FeelExpr

/-- A value that has no parts and is no function. -/
def FeelVal.IsScalar : FeelVal → Prop
  | .null | .bool _ | .int _ | .double _ | .str _ | .date _ | .time _ | .dateTime _ | .ymDur _ | .dtDur _ => True
  | _ => False

def Func.toVal : Func → FeelVal
  | .builtin name => .builtin name
  | .lambda params body closure => .lambda params body closure

theorem FeelVal.toVal_of_asFunc {v : FeelVal} {func : Func} (h : v.asFunc = some func) : func.toVal = v := by
  cases v
  case builtin | lambda =>
    cases h
    rfl
  all_goals cases h

structure Structural (K : FeelVal → Prop) : Prop where
  scalar : ∀ v, v.IsScalar → K v
  list : ∀ items, K (.list items) ↔ ∀ v ∈ items, K v
  context : ∀ entries, K (.context entries) ↔ ∀ e ∈ entries, K e.2
  range : ∀ start si stop ei, K (.range start si stop ei) ↔ (∀ v ∈ start, K v) ∧ ∀ v ∈ stop, K v

/-- Every value of a frame. -/
def Frame.All (K : FeelVal → Prop) (frame : Frame) : Prop := ∀ e ∈ frame, K e.2

namespace Frame

variable {K : FeelVal → Prop} {frame : Frame}

theorem mem_of_get {key : String} {v : FeelVal} (h : frame.get key = some v) : (key, v) ∈ frame := by
  unfold Frame.get at h
  induction frame with
  | nil => cases h
  | cons entry rest ih =>
    obtain ⟨k, w⟩ := entry
    rw [List.lookup_cons] at h
    split at h
    · next heq =>
      cases h
      rw [eq_of_beq heq]
      exact List.mem_cons_self
    · exact List.mem_cons_of_mem _ (ih h)

theorem mem_insert {key : String} {v : FeelVal} {e : String × FeelVal} (h : e ∈ frame.insert key v) :
    e = (key, v) ∨ e ∈ frame := by
  induction frame with
  | nil => exact .inl (List.mem_singleton.mp h)
  | cons entry rest ih =>
    obtain ⟨k, w⟩ := entry
    unfold Frame.insert at h
    split at h
    · exact List.mem_cons.mp h
    · split at h
      · rcases List.mem_cons.mp h with rfl | h
        · exact .inl rfl
        · exact .inr (List.mem_cons_of_mem _ h)
      · rcases List.mem_cons.mp h with rfl | h
        · exact .inr List.mem_cons_self
        · exact (ih h).imp_right (List.mem_cons_of_mem _)

theorem mem_of_remove {key : String} {e : String × FeelVal} (h : e ∈ frame.remove key) : e ∈ frame :=
  List.mem_of_mem_filter h

theorem mem_extend {updates : Frame} {e : String × FeelVal} (h : e ∈ frame.extend updates) :
    e ∈ updates ∨ e ∈ frame := by
  unfold Frame.extend at h
  induction updates generalizing frame with
  | nil => exact .inr h
  | cons update rest ih =>
    rcases ih h with h | h
    · exact .inl (List.mem_cons_of_mem _ h)
    · rcases mem_insert h with rfl | h
      · exact .inl List.mem_cons_self
      · exact .inr h

theorem All.nil : All K [] := fun _ h => by cases h

theorem All.get (h : frame.All K) {key : String} {v : FeelVal} (hget : frame.get key = some v) : K v :=
  h (key, v) (mem_of_get hget)

theorem All.insert (h : frame.All K) (key : String) {v : FeelVal} (hv : K v) : (frame.insert key v).All K := by
  intro e he
  rcases mem_insert he with rfl | he
  · exact hv
  · exact h e he

theorem All.remove (h : frame.All K) (key : String) : (frame.remove key).All K :=
  fun e he => h e (mem_of_remove he)

theorem All.extend (h : frame.All K) {updates : Frame} (hupdates : updates.All K) : (frame.extend updates).All K := by
  intro e he
  rcases mem_extend he with he | he
  · exact hupdates e he
  · exact h e he

end Frame

namespace Structural

variable {K : FeelVal → Prop}

theorem null (hK : Structural K) : K .null := hK.scalar _ trivial

theorem bool (hK : Structural K) (b : Bool) : K (.bool b) := hK.scalar _ trivial

theorem int (hK : Structural K) (i : Int) : K (.int i) := hK.scalar _ trivial

theorem str (hK : Structural K) (s : String) : K (.str s) := hK.scalar _ trivial

theorem num (hK : Structural K) (n : UInt64) : K (FeelVal.num n) := by
  unfold FeelVal.num
  split
  · exact hK.null
  · split <;> exact hK.scalar _ trivial

mutual

theorem fromValue (hK : Structural K) : ∀ v, K (FeelVal.fromValue v)
  | .null => hK.scalar _ trivial
  | .bool _ => hK.scalar _ trivial
  | .int _ => hK.scalar _ trivial
  | .double _ => hK.scalar _ trivial
  | .str _ => hK.scalar _ trivial
  | .list items => (hK.list _).mpr (fromItems hK items)
  | .map entries => (hK.context _).mpr (fromEntries hK entries)

theorem fromItems (hK : Structural K) : ∀ items, ∀ v ∈ FeelVal.fromItems items, K v
  | [], _, h => by cases h
  | w :: rest, v, h => by
    rcases List.mem_cons.mp h with rfl | h
    · exact fromValue hK w
    · exact fromItems hK rest v h

theorem fromEntries (hK : Structural K) : ∀ entries, ∀ e ∈ FeelVal.fromEntries entries, K e.2
  | [], _, h => by cases h
  | (k, w) :: rest, e, h => by
    rcases List.mem_cons.mp h with rfl | h
    · exact fromValue hK w
    · exact fromEntries hK rest e h

end

theorem plain (hK : Structural K) (p : Plain) : K p.toVal := by
  have hmap {α : Type} (items : List α) (f : α → FeelVal) (hf : ∀ a, K (f a)) : K (.list (items.map f)) :=
    (hK.list _).mpr fun v hv => by
      obtain ⟨a, -, rfl⟩ := List.mem_map.mp hv
      exact hf a
  cases p with
  | strings items => exact hmap items .str hK.str
  | numbers items => exact hmap items FeelVal.num hK.num
  | ints items => exact hmap items .int hK.int
  | json v => exact hK.fromValue v
  | _ => exact hK.scalar _ trivial

/-! ## Access -/

theorem getD (hK : Structural K) {v : Option FeelVal} (h : ∀ w, v = some w → K w) : K (v.getD .null) := by
  cases v with
  | none => exact hK.null
  | some w => exact h w rfl

theorem arg (hK : Structural K) {args : List FeelVal} (h : ∀ v ∈ args, K v) (i : Nat) : K (Builtins.arg args i) :=
  hK.getD fun w hw => h w (List.mem_of_getElem? hw)

theorem scalarDate (hK : Structural K) (d : Date) (name : String) : K (dateMember d name) := by
  unfold dateMember
  split <;> exact hK.scalar _ trivial

theorem scalarTime (hK : Structural K) (t : Time) (name : String) : K (timeMember t name) := by
  unfold timeMember
  split
  · exact hK.int _
  · exact hK.int _
  · exact hK.int _
  · cases t.zone with
    | none => exact hK.null
    | some zone => exact hK.str zone
  · exact hK.null

theorem ofEntries (hK : Structural K) {entries : Frame} (h : K (.context entries)) {key : String} {v : FeelVal}
    (hget : entries.get key = some v) : K v :=
  have hentries : entries.All K := (hK.context entries).mp h
  hentries.get hget

mutual

theorem member (hK : Structural K) : ∀ (v : FeelVal) (name : String), K v → K (member v name)
  | .null, _, _ => hK.null
  | .bool _, _, _ => hK.null
  | .int _, _, _ => hK.null
  | .double _, _, _ => hK.null
  | .str _, _, _ => hK.null
  | .list items, name, h => (hK.list _).mpr (memberItems hK items name ((hK.list items).mp h))
  | .context entries, _, h => hK.getD fun _ hw => hK.ofEntries h hw
  | .date d, name, _ => hK.scalarDate d name
  | .time t, name, _ => hK.scalarTime t name
  | .dateTime d, name, _ => by
    show K (datetimeMember d name)
    unfold datetimeMember
    split
    all_goals first
      | exact hK.scalarDate _ _
      | exact hK.scalarTime _ _
      | exact hK.null
  | .ymDur d, name, _ => by
    show K (ymMember d name)
    unfold ymMember
    split <;> exact hK.scalar _ trivial
  | .dtDur d, name, _ => by
    show K (dtMember d name)
    unfold dtMember
    dsimp only
    split <;> exact hK.scalar _ trivial
  | .range .., _, _ => hK.null
  | .builtin _, _, _ => hK.null
  | .lambda .., _, _ => hK.null

theorem memberItems (hK : Structural K) : ∀ (items : List FeelVal) (name : String), (∀ v ∈ items, K v) →
    ∀ v ∈ FeelExpr.memberItems items name, K v
  | [], _, _, _, h => by cases h
  | w :: rest, name, hitems, v, h => by
    rcases List.mem_cons.mp h with rfl | h
    · exact member hK w name (hitems w List.mem_cons_self)
    · exact memberItems hK rest name (fun v hv => hitems v (List.mem_cons_of_mem _ hv)) v h

end

theorem iterable (hK : Structural K) {v : FeelVal} (h : K v) : ∀ item ∈ FeelExpr.iterable v, K item := by
  intro item hitem
  unfold FeelExpr.iterable at hitem
  split at hitem
  · exact (hK.list _).mp h item hitem
  · split at hitem
    all_goals
      obtain ⟨i, -, rfl⟩ := List.mem_map.mp hitem
      exact hK.int _
  · rw [List.mem_singleton.mp hitem]
    exact h

theorem selectAt (hK : Structural K) {list : List FeelVal} (h : ∀ v ∈ list, K v) (index : UInt64) :
    K (selectAt list index) := by
  unfold FeelExpr.selectAt
  dsimp only
  split
  · exact hK.null
  · split <;> split
    all_goals first
      | exact hK.null
      | exact hK.getD fun w hw => h w (List.mem_of_getElem? hw)

theorem itemFrame (hK : Structural K) {item : FeelVal} (h : K item) : (itemFrame item).All K := by
  unfold FeelExpr.itemFrame
  refine Frame.All.insert ?_ _ h
  split
  · next entries => exact (hK.context entries).mp h
  · exact Frame.All.nil

theorem argFrame (hK : Structural K) {args : List FeelVal} (h : ∀ v ∈ args, K v) (params : List String) :
    (argFrame params args).All K := by
  unfold FeelExpr.argFrame
  have hfold : ∀ (pairs : List (String × Nat)) (frame : Frame), frame.All K →
      Frame.All K (pairs.foldl (fun frame pair => Frame.insert frame pair.1 (Builtins.arg args pair.2)) frame) := by
    intro pairs
    induction pairs with
    | nil => exact fun _ hframe => hframe
    | cons pair rest ih => exact fun frame hframe => ih _ (hframe.insert pair.1 (hK.arg h pair.2))
  exact hfold _ _ Frame.All.nil

end Structural

/-! ## Operators -/

/-- What the computation returns, if it does, has the property. -/
def Returns (K : FeelVal → Prop) (r : Result) : Prop := ∀ v, r = .ok v → K v

theorem Returns.error {K : FeelVal → Prop} (err : FeelError) : Returns K (.error err) := by
  intro v h
  cases h

theorem Returns.ok {K : FeelVal → Prop} {v : FeelVal} (h : K v) : Returns K (.ok v) := by
  intro w hw
  cases hw
  exact h

theorem isScalar_num (n : UInt64) : (FeelVal.num n).IsScalar := by
  unfold FeelVal.num
  split
  · trivial
  · split <;> trivial

theorem isScalar_ite {p : Prop} [Decidable p] {v w : FeelVal} (hv : v.IsScalar) (hw : w.IsScalar) :
    (if p then v else w).IsScalar := by
  split
  · exact hv
  · exact hw

theorem add_returns (l r : FeelVal) : Returns FeelVal.IsScalar (add l r) := by
  unfold add
  split
  · exact .ok (isScalar_num _)
  · split
    all_goals first
      | exact .error _
      | exact .ok trivial

theorem sub_returns (l r : FeelVal) : Returns FeelVal.IsScalar (sub l r) := by
  unfold sub
  split
  · exact .ok (isScalar_num _)
  · split
    all_goals first
      | exact .error _
      | exact .ok trivial

theorem mul_returns (l r : FeelVal) : Returns FeelVal.IsScalar (mul l r) := by
  unfold mul
  split
  · exact .ok (isScalar_num _)
  · split
    all_goals first
      | exact .error _
      | exact .ok trivial

theorem div_returns (l r : FeelVal) : Returns FeelVal.IsScalar (div l r) := by
  unfold div
  split
  · exact .ok (isScalar_ite trivial (isScalar_num _))
  · split
    · exact .ok (isScalar_ite trivial (isScalar_num _))
    · exact .ok (isScalar_ite trivial (isScalar_num _))
    · split
      · exact .ok (isScalar_ite trivial trivial)
      · exact .error _
    · split
      · exact .ok (isScalar_ite trivial trivial)
      · exact .error _
    · exact .error _

theorem cmpOp_returns (l r : FeelVal) (f : Ordering → Bool) : Returns FeelVal.IsScalar (cmpOp l r f) := by
  unfold cmpOp
  split
  · exact .ok trivial
  · exact .error _

theorem operate_returns [Texts] (op : BinOp) (l r : FeelVal) : Returns FeelVal.IsScalar (operate op l r) := by
  cases op with
  | add => exact add_returns l r
  | sub => exact sub_returns l r
  | mul => exact mul_returns l r
  | div => exact div_returns l r
  | exp =>
    unfold operate
    dsimp only
    split
    · exact .ok (isScalar_num _)
    · exact .error _
  | eq => exact .ok trivial
  | ne => exact .ok trivial
  | lt => exact cmpOp_returns l r _
  | le => exact cmpOp_returns l r _
  | gt => exact cmpOp_returns l r _
  | ge => exact cmpOp_returns l r _
  | and =>
    refine .ok ?_
    unfold ternaryAnd
    split <;> trivial
  | or =>
    refine .ok ?_
    unfold ternaryOr
    split <;> trivial

theorem negate_returns (v : FeelVal) : Returns FeelVal.IsScalar (negate v) := by
  unfold negate
  split
  · exact .ok trivial
  · exact .ok trivial
  · split
    · exact .ok (isScalar_num _)
    · exact .error _

theorem complement_returns (v : FeelVal) : Returns FeelVal.IsScalar (complement v) := by
  unfold complement
  split
  · exact .ok trivial
  · exact .ok trivial
  · exact .error _

/-! ## Builtins -/

namespace Builtins

variable {K : FeelVal → Prop}

theorem wantList_ok {v : FeelVal} {ctx : String} {items : List FeelVal} (h : wantList v ctx = .ok items) :
    v = .list items := by
  cases v
  case list => 
    cases h
    rfl
  all_goals cases h

theorem items_of_wantList (hK : Structural K) {v : FeelVal} (hv : K v) {ctx : String} {items : List FeelVal}
    (h : wantList v ctx = .ok items) : ∀ w ∈ items, K w := by
  rw [wantList_ok h] at hv
  exact (hK.list items).mp hv

theorem listOrVarargs_all (hK : Structural K) {args : List FeelVal} (h : ∀ v ∈ args, K v) :
    ∀ v ∈ listOrVarargs args, K v := by
  unfold listOrVarargs
  split
  · next items => exact (hK.list items).mp (h _ (List.mem_singleton.mpr rfl))
  · exact h

mutual

theorem flatten_all (hK : Structural K) : ∀ v, K v → ∀ w ∈ flatten v, K w
  | .list items, h => flattenItems_all hK items ((hK.list items).mp h)
  | .null, h | .bool _, h | .int _, h | .double _, h | .str _, h | .context _, h | .date _, h | .time _, h
  | .dateTime _, h | .ymDur _, h | .dtDur _, h | .range .., h | .builtin _, h | .lambda .., h => fun w hw => by
    rw [flatten] at hw
    · rw [List.mem_singleton.mp hw]
      exact h
    · intro items heq
      cases heq

theorem flattenItems_all (hK : Structural K) : ∀ items, (∀ v ∈ items, K v) → ∀ w ∈ flattenItems items, K w
  | [], _, _, hw => by cases hw
  | v :: rest, h, w, hw => by
    rcases List.mem_append.mp hw with hw | hw
    · exact flatten_all hK v (h v List.mem_cons_self) w hw
    · exact flattenItems_all hK rest (fun v hv => h v (List.mem_cons_of_mem _ hv)) w hw

end

theorem mem_pushNew {out : List FeelVal} {x v : FeelVal} (h : v ∈ pushNew out x) : v ∈ out ∨ v = x := by
  unfold pushNew at h
  split at h
  · exact .inl h
  · simpa using h

/-- A loop over values that have the property, over an accumulator that has it. -/
theorem foldl_all {α : Type} {P : α → Prop} {step : α → FeelVal → α} {items : List FeelVal} {init : α} (hinit : P init)
    (h : ∀ v ∈ items, K v) (hstep : ∀ a v, P a → K v → P (step a v)) : P (items.foldl step init) := by
  induction items generalizing init with
  | nil => exact hinit
  | cons v rest ih =>
    have hv : K v := h v List.mem_cons_self
    exact ih (hstep init v hinit hv) fun w hw => h w (List.mem_cons_of_mem _ hw)

theorem pushNew_all {out : List FeelVal} (hout : ∀ v ∈ out, K v) {x : FeelVal} (hx : K x) :
    ∀ v ∈ pushNew out x, K v := by
  intro v hv
  rcases mem_pushNew hv with hv | rfl
  · exact hout v hv
  · exact hx

theorem distinct_all {items : List FeelVal} (h : ∀ v ∈ items, K v) : ∀ v ∈ items.foldl pushNew [], K v :=
  foldl_all (P := fun out => ∀ v ∈ out, K v) (fun _ hv => by cases hv) h fun _ _ hout hx => pushNew_all hout hx

theorem duplicateValues_all {items : List FeelVal} (h : ∀ v ∈ items, K v) : ∀ v ∈ duplicateValues items, K v := by
  unfold duplicateValues
  refine foldl_all (P := fun out => ∀ v ∈ out, K v) (fun _ hv => by cases hv) h fun out x hout hx => ?_
  split
  · exact pushNew_all hout hx
  · exact hout

theorem lists_all (hK : Structural K) {args : List FeelVal} (h : ∀ v ∈ args, K v) {ctx : String}
    {lists : List (List FeelVal)} (hlists : args.mapM (wantList · ctx) = .ok lists) : ∀ v ∈ lists.flatten, K v := by
  induction args generalizing lists with
  | nil =>
    cases hlists
    intro v hv
    cases hv
  | cons a rest ih =>
    rw [List.mapM_cons] at hlists
    obtain ⟨items, hitems, hlists⟩ := Except.bind_eq_ok.mp hlists
    obtain ⟨more, hmore, hlists⟩ := Except.bind_eq_ok.mp hlists
    cases hlists
    intro v hv
    rcases List.mem_append.mp (List.flatten_cons ▸ hv) with hv | hv
    · exact items_of_wantList hK (h a List.mem_cons_self) hitems v hv
    · exact ih (fun v hv => h v (List.mem_cons_of_mem _ hv)) hmore v hv

theorem putNested_all (hK : Structural K) {map : Frame} (hmap : map.All K) {value : FeelVal} (hvalue : K value)
    (keys : List FeelVal) : (putNested map keys value).All K := by
  induction keys generalizing map with
  | nil => exact hmap
  | cons key rest ih =>
    unfold putNested
    split
    · next heq =>
      cases heq
      split
      · exact hmap.insert _ hvalue
      · split
        · exact hmap.insert _ ((hK.context _).mpr (ih .nil))
        · next inner hinner =>
          exact hmap.insert _ ((hK.context _).mpr (ih ((hK.context _).mp (hmap.get hinner))))
        · exact hmap
    · exact hmap

theorem contextFrom_returns (hK : Structural K) {v : FeelVal} (hv : K v) : Returns K (contextFrom v) := by
  intro w hw
  obtain ⟨items, hitems, hw⟩ := Except.bind_eq_ok.mp hw
  cases hw
  refine (hK.context _).mpr ?_
  refine foldl_all (P := Frame.All K) .nil (items_of_wantList hK hv hitems) fun map entry hmap hentry => ?_
  split
  · split
    · next e _ _ _ hvalue => exact hmap.insert _ (hK.ofEntries hentry hvalue)
    · exact hmap
  · exact hmap

theorem mem_of_mem_toChunks {α : Type} {size : Nat} {items chunk : List α} {a : α} (h : chunk ∈ items.toChunks size)
    (ha : a ∈ chunk) : a ∈ items := by
  have hgo : ∀ (rest : List α) (acc : Array α) (done : Array (List α)), chunk ∈ List.toChunks.go size rest acc done →
      chunk ∈ done ∨ a ∈ acc ∨ a ∈ rest := by
    intro rest
    induction rest with
    | nil =>
      intro acc done hchunk
      rcases (by simpa [List.toChunks.go] using hchunk : chunk ∈ done ∨ chunk = acc.toList) with hdone | rfl
      · exact .inl hdone
      · exact .inr (.inl (Array.mem_toList_iff.mp ha))
    | cons x rest ih =>
      intro acc done hchunk
      rw [List.toChunks.go] at hchunk
      split at hchunk
      · rcases ih _ _ hchunk with hdone | hacc | hrest
        · rcases Array.mem_push.mp hdone with hdone | rfl
          · exact .inl hdone
          · exact .inr (.inl (Array.mem_toList_iff.mp ha))
        · rcases Array.mem_push.mp hacc with hacc | rfl
          · simp at hacc
          · exact .inr (.inr List.mem_cons_self)
        · exact .inr (.inr (List.mem_cons_of_mem _ hrest))
      · rcases ih _ _ hchunk with hdone | hacc | hrest
        · exact .inl hdone
        · rcases Array.mem_push.mp hacc with hacc | rfl
          · exact .inr (.inl hacc)
          · exact .inr (.inr List.mem_cons_self)
        · exact .inr (.inr (List.mem_cons_of_mem _ hrest))
  cases items with
  | nil => cases size <;> cases h
  | cons x rest =>
    cases size with
    | zero =>
      obtain rfl : chunk = x :: rest := by simpa [List.toChunks] using h
      exact ha
    | succ size =>
      rw [List.toChunks] at h
      · rcases hgo rest #[x] #[] h with hdone | hacc | hrest
        · simp at hdone
        · rw [(by simpa using hacc : a = x)]
          exact List.mem_cons_self
        · exact List.mem_cons_of_mem _ hrest
      · intro heq
        cases heq

theorem partition_returns (hK : Structural K) {args : List FeelVal} (h : ∀ v ∈ args, K v) :
    Returns K (partition args) := by
  intro w hw
  obtain ⟨items, hitems, hw⟩ := Except.bind_eq_ok.mp hw
  obtain ⟨size, -, hw⟩ := Except.bind_eq_ok.mp hw
  dsimp only at hw
  split at hw
  · cases hw
    exact hK.null
  · cases hw
    refine (hK.list _).mpr fun v hv => ?_
    obtain ⟨chunk, hchunk, rfl⟩ := List.mem_map.mp hv
    exact (hK.list _).mpr fun a ha => items_of_wantList hK (hK.arg h 0) hitems a (mem_of_mem_toChunks hchunk ha)

theorem contextPut_returns (hK : Structural K) {args : List FeelVal} (h : ∀ v ∈ args, K v) :
    Returns K (contextPut args) := by
  unfold contextPut
  split
  · next map hmap =>
    have hentries : Frame.All K map := (hK.context map).mp (hmap ▸ hK.arg h 0)
    refine .ok ((hK.context _).mpr ?_)
    split
    · next hv => exact hentries.insert _ (h _ (List.mem_of_getElem? hv))
    · next hv => exact putNested_all hK hentries (h _ (List.mem_of_getElem? hv)) _
    · exact hentries
  · exact .error _

theorem contextMerge_all (hK : Structural K) {args : List FeelVal} (h : ∀ v ∈ args, K v) :
    (contextMerge args).All K := by
  unfold contextMerge
  refine foldl_all (P := Frame.All K) .nil (listOrVarargs_all hK h) fun out a hout ha => ?_
  split
  · next m => exact hout.extend ((hK.context m).mp ha)
  · exact hout

theorem assertBuiltin_returns (hK : Structural K) {args : List FeelVal} (h : ∀ v ∈ args, K v) :
    Returns K (assertBuiltin args) := by
  unfold assertBuiltin
  split
  · exact .ok (hK.arg h 0)
  · exact .error _

theorem structural_returns (hK : Structural K) {name : String} {args : List FeelVal} (h : ∀ v ∈ args, K v) {r : Result}
    (hr : structural name args = some r) : Returns K r := by
  have harg := hK.arg h
  unfold structural at hr
  dsimp only at hr
  split at hr
  all_goals cases hr
  · exact contextFrom_returns hK (harg 0)
  · refine .ok ?_
    split
    · next heq _ => exact hK.getD fun w hw => hK.ofEntries (heq ▸ harg 0) hw
    · exact hK.null
  · refine .ok ?_
    split
    · next m heq =>
      refine (hK.list _).mpr fun v hv => ?_
      obtain ⟨⟨k, w⟩, hentry, rfl⟩ := List.mem_map.mp hv
      have hw : K w := (hK.context m).mp (heq ▸ harg 0) (k, w) hentry
      refine (hK.context _).mpr fun e he => ?_
      simp only [List.mem_cons, List.not_mem_nil, or_false] at he
      rcases he with rfl | rfl
      · exact hK.str k
      · exact hw
    · exact hK.null
  · intro w hw
    obtain ⟨items, hitems, hw⟩ := Except.bind_eq_ok.mp hw
    cases hw
    refine (hK.list _).mpr fun v hv => ?_
    rcases List.mem_append.mp hv with hv | hv
    · exact items_of_wantList hK (harg 0) hitems v hv
    · exact h v (List.mem_of_mem_drop hv)
  · intro w hw
    obtain ⟨lists, hlists, hw⟩ := Except.bind_eq_ok.mp hw
    cases hw
    exact (hK.list _).mpr (lists_all hK h hlists)
  · intro w hw
    obtain ⟨items, hitems, hw⟩ := Except.bind_eq_ok.mp hw
    cases hw
    exact (hK.list _).mpr fun v hv => items_of_wantList hK (harg 0) hitems v (List.mem_reverse.mp hv)
  · intro w hw
    obtain ⟨lists, hlists, hw⟩ := Except.bind_eq_ok.mp hw
    cases hw
    exact (hK.list _).mpr (distinct_all (lists_all hK h hlists))
  · intro w hw
    obtain ⟨items, hitems, hw⟩ := Except.bind_eq_ok.mp hw
    cases hw
    exact (hK.list _).mpr (distinct_all (items_of_wantList hK (harg 0) hitems))
  · intro w hw
    obtain ⟨items, hitems, hw⟩ := Except.bind_eq_ok.mp hw
    cases hw
    exact (hK.list _).mpr (duplicateValues_all (items_of_wantList hK (harg 0) hitems))
  · exact .ok ((hK.list _).mpr (flatten_all hK _ (harg 0)))
  · exact partition_returns hK h
  · exact contextPut_returns hK h
  · exact contextPut_returns hK h
  · exact .ok ((hK.context _).mpr (contextMerge_all hK h))
  · exact .ok ((hK.context _).mpr (contextMerge_all hK h))
  · refine .ok ?_
    split
    · exact harg 1
    · exact harg 0
  · exact assertBuiltin_returns hK h
  · exact .ok (harg 0)

/-- A builtin that computes on its arguments alone returns a value with the structural properties of its arguments. -/
theorem call_returns [Texts] (hK : Structural K) (name : String) {args : List FeelVal} (h : ∀ v ∈ args, K v) :
    Returns K (call name args) := by
  unfold call
  split
  · next r hr => exact structural_returns hK h hr
  · split
    · next r _ =>
      intro v hv
      obtain ⟨p, -, rfl⟩ := Except.map_eq_ok.mp hv
      exact hK.plain p
    · exact .error _

end Builtins

namespace Positions

open Builtins

variable {K : FeelVal → Prop} {α β : Type}

/-- A call that returns a value returns one at each step. -/
theorem run_bind {m : Run α} {f : α → Run β} {b : β} (h : (m >>= f) = Except.ok (.ok b)) :
    ∃ a, m = Except.ok (.ok a) ∧ f a = Except.ok (.ok b) := by
  change ExceptT.bind m f = _ at h
  unfold ExceptT.bind ExceptT.mk at h
  obtain ⟨r, hr, h⟩ := Except.bind_eq_ok.mp h
  cases r with
  | ok a => exact ⟨a, hr, h⟩
  | error err => cases h

theorem returned_ok {r : Except FeelError α} {a : α} (h : returned r = Except.ok (.ok a)) : r = .ok a := Except.ok.inj h

theorem lift_ok {x : Except Panic α} {a : α} (h : (liftM x : Run α) = Except.ok (.ok a)) : x = .ok a := by
  cases x with
  | ok b =>
    cases h
    rfl
  | error e => cases h

theorem mem_of_slice {xs ys : List α} {first stop : Int} (h : slice xs first stop = .ok ys) {a : α} (ha : a ∈ ys) :
    a ∈ xs := by
  unfold slice at h
  split at h
  · cases h
    exact List.mem_of_mem_drop (List.mem_of_mem_take ha)
  · cases h

theorem substring_returns (hK : Structural K) {checks : Bool} {args : List FeelVal} {v : FeelVal}
    (hv : substring checks args = Except.ok (.ok v)) : K v := by
  obtain ⟨s, -, hv⟩ := run_bind hv
  obtain ⟨start, -, hv⟩ := run_bind hv
  dsimp only at hv
  generalize (if FeelVal.asI64 start > 0 then FeelVal.asI64 start - 1 else _) = first at hv
  split_ifs at hv
  · cases hv
    exact hK.str _
  · obtain ⟨count, -, hv⟩ := run_bind hv
    obtain ⟨cs, -, hv⟩ := run_bind hv
    cases hv
    exact hK.str _

theorem sublist_returns (hK : Structural K) {checks : Bool} {args : List FeelVal} (h : ∀ v ∈ args, K v) {v : FeelVal}
    (hv : sublist checks args = Except.ok (.ok v)) : K v := by
  have hempty : K (.list []) := (hK.list _).mpr fun _ hv => by cases hv
  obtain ⟨items, hitems, hv⟩ := run_bind hv
  obtain ⟨start, -, hv⟩ := run_bind hv
  dsimp only at hv
  generalize (if FeelVal.asI64 start > 0 then FeelVal.asI64 start - 1 else _) = first at hv
  split_ifs at hv
  · cases hv
    exact hempty
  · cases hv
    exact hempty
  · obtain ⟨count, -, hv⟩ := run_bind hv
    obtain ⟨ys, hys, hv⟩ := run_bind hv
    cases hv
    obtain ⟨sum, -, hys⟩ := Except.bind_eq_ok.mp (lift_ok hys)
    exact (hK.list _).mpr fun w hw => items_of_wantList hK (hK.arg h 0) (returned_ok hitems) w (mem_of_slice hys hw)

theorem insertBefore_returns (hK : Structural K) {checks : Bool} {args : List FeelVal} (h : ∀ v ∈ args, K v) {v : FeelVal}
    (hv : insertBefore checks args = Except.ok (.ok v)) : K v := by
  obtain ⟨items, hitems, hv⟩ := run_bind hv
  obtain ⟨pos, -, hv⟩ := run_bind hv
  obtain ⟨sum, -, hv⟩ := run_bind hv
  cases hv
  refine (hK.list _).mpr fun w hw => ?_
  rcases List.eq_or_mem_of_mem_insertIdx hw with rfl | hw
  · exact hK.arg h 2
  · exact items_of_wantList hK (hK.arg h 0) (returned_ok hitems) w hw

theorem remove_returns (hK : Structural K) {checks : Bool} {args : List FeelVal} (h : ∀ v ∈ args, K v) {v : FeelVal}
    (hv : remove checks args = Except.ok (.ok v)) : K v := by
  obtain ⟨items, hitems, hv⟩ := run_bind hv
  obtain ⟨pos, -, hv⟩ := run_bind hv
  obtain ⟨sum, -, hv⟩ := run_bind hv
  cases hv
  have hall := items_of_wantList hK (hK.arg h 0) (returned_ok hitems)
  refine (hK.list _).mpr fun w hw => ?_
  split at hw
  · exact hall w (List.mem_of_mem_eraseIdx hw)
  · exact hall w hw

end Positions

/-- A builtin that has no regular expression returns a value with the structural properties of its arguments. -/
theorem callChecked_returns [Texts] {K : FeelVal → Prop} (hK : Structural K) {checks : Bool} {name : String}
    {args : List FeelVal} (h : ∀ v ∈ args, K v) {v : FeelVal} (hv : Builtins.callChecked checks name args = Except.ok (.ok v)) :
    K v := by
  have hplain {m : Run Plain} (hm : (Plain.toVal <$> m) = Except.ok (.ok v)) : K v := by
    obtain ⟨p, -, hp⟩ := Positions.run_bind (f := fun p : Plain => pure p.toVal) (by rwa [bind_pure_comp])
    cases hp
    exact hK.plain p
  unfold Builtins.callChecked at hv
  split at hv
  · exact Positions.substring_returns hK hv
  · exact Positions.sublist_returns hK h hv
  · exact Positions.insertBefore_returns hK h hv
  · exact Positions.remove_returns hK h hv
  · exact hplain hv
  · exact hplain hv
  · exact hplain hv
  · exact Builtins.call_returns hK _ h v (Positions.returned_ok hv)

theorem callWithin_returns [Texts] {K : FeelVal → Prop} (hK : Structural K) {fuel : Nat} {name : String}
    {args : List FeelVal} (h : ∀ v ∈ args, K v) {r : Result} (hr : Builtins.callWithin fuel name args = some r) :
    Returns K r := by
  unfold Builtins.callWithin at hr
  split at hr
  · cases hr
    exact .error _
  · obtain ⟨plain, -, rfl⟩ := Option.map_eq_some_iff.mp hr
    intro v hv
    obtain ⟨p, -, rfl⟩ := Except.map_eq_ok.mp hv
    exact hK.plain p
  · intro v hv
    subst hv
    cases hcall : Builtins.callChecked false name args with
    | error e =>
      rw [hcall] at hr
      cases hr
    | ok r =>
      rw [hcall] at hr
      cases hr
      exact callChecked_returns hK h hcall

end NanoBpm.FeelExpr
