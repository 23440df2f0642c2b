import NanoBpm.Feel.Parts

/-!
# Computations that run alike

Two computations of the evaluator, over scopes whose frames satisfy `W`, that make the same calls, each with the promise
of its result that `P` knows. One rule for each way in which the evaluator puts computations together.
-/

namespace NanoBpm.FeelExpr

open EvalM

/-- The computations do the same as long as the promises are kept, and give a result in `Q`. -/
def Agree {α : Type} (W : Frame → Prop) (P : Call → (Result → Prop) → Prop) (Q : α → Prop) (m m' : EvalM α) : Prop :=
  ∀ scopes : List Frame, (∀ frame ∈ scopes, W frame) →
    Calls.Alike P (fun r : Except FeelError α × List Frame => (∀ a, r.1 = .ok a → Q a) ∧ ∀ frame ∈ r.2, W frame)
      (m scopes) (m' scopes)

namespace Agree

variable {W : Frame → Prop} {P : Call → (Result → Prop) → Prop} {α β : Type} {Q : α → Prop} {Q' : β → Prop}
  {m m' : EvalM α} {f f' : α → EvalM β}

theorem pure {a : α} (h : Q a) : Agree W P Q (Pure.pure a : EvalM α) (Pure.pure a) := by
  intro scopes hscopes
  refine .pure ⟨?_, hscopes⟩
  intro b hb
  cases hb
  exact h

theorem ofExcept {r : Except FeelError α} (h : ∀ a, r = .ok a → Q a) : Agree W P Q (ofExcept r) (ofExcept r) :=
  fun _ hscopes => .pure ⟨h, hscopes⟩

theorem fail (err : FeelError) : Agree W P Q (fail err : EvalM α) (fail err) :=
  ofExcept fun _ h => by cases h

/-- An error ends both. -/
theorem bind (h : Agree W P Q m m') (hf : ∀ a, Q a → Agree W P Q' (f a) (f' a)) :
    Agree W P Q' (m >>= f) (m' >>= f') := by
  intro scopes hscopes
  refine (h scopes hscopes).bind ?_
  rintro ⟨r, after⟩ ⟨hr, hafter⟩
  cases r with
  | ok a => exact hf a (hr a rfl) after hafter
  | error err => exact .pure ⟨fun _ h => by (cases h), hafter⟩

theorem attempt (h : Agree W P Q m m') :
    Agree W P (fun r : Except FeelError α => ∀ a, r = .ok a → Q a) (attempt m) (attempt m') := by
  intro scopes hscopes
  refine (h scopes hscopes).bind ?_
  rintro ⟨r, after⟩ ⟨hr, hafter⟩
  refine .pure ⟨?_, hafter⟩
  intro b hb
  cases hb
  exact hr

theorem getScopes : Agree W P (fun scopes : List Frame => ∀ frame ∈ scopes, W frame) getScopes getScopes := by
  intro scopes hscopes
  refine .pure ⟨?_, hscopes⟩
  intro b hb
  cases hb
  exact hscopes

theorem push {frame : Frame} (h : W frame) : Agree W P (fun _ => True) (push frame) (push frame) := by
  intro scopes hscopes
  refine .pure ⟨fun _ _ => trivial, ?_⟩
  intro g hg
  rcases List.mem_cons.mp hg with rfl | hg
  · exact h
  · exact hscopes g hg

theorem pop : Agree W P (fun _ => True) pop pop :=
  fun _ hscopes => .pure ⟨fun _ _ => trivial, fun g hg => hscopes g (List.mem_of_mem_tail hg)⟩

theorem insertTop {key : String} {v : FeelVal} (h : ∀ frame, W frame → W (Frame.insert frame key v)) :
    Agree W P (fun _ => True) (insertTop key v) (insertTop key v) := by
  intro scopes hscopes
  cases scopes with
  | nil => exact .pure ⟨fun _ _ => trivial, hscopes⟩
  | cons top rest =>
    refine .pure ⟨fun _ _ => trivial, ?_⟩
    intro g hg
    rcases List.mem_cons.mp hg with rfl | hg
    · exact h top (hscopes top List.mem_cons_self)
    · exact hscopes g (List.mem_cons_of_mem _ hg)

theorem apply {func : Func} {args : List FeelVal} {K : FeelVal → Prop} (h : P ⟨func, args, 0⟩ (Returns K)) :
    Agree W P K (EvalM.apply func args) (EvalM.apply func args) :=
  fun _ hscopes => .call h fun _ hr => .pure ⟨hr, hscopes⟩

theorem mono (h : Agree W P Q m m') {Q'' : α → Prop} (hq : ∀ a, Q a → Q'' a) : Agree W P Q'' m m' :=
  fun scopes hscopes => (h scopes hscopes).mono fun _ hr => ⟨fun a ha => hq a (hr.1 a ha), hr.2⟩

end Agree

/-! ## Filters and loops -/

section

variable {W : Frame → Prop} {P : Call → (Result → Prop) → Prop} {K : FeelVal → Prop}

theorem filterItems_agree {idx idx' : EvalM FeelVal} (h : Agree W P (fun _ => True) idx idx') {items : List FeelVal}
    (hitems : ∀ v ∈ items, W (itemFrame v)) :
    Agree W P (fun kept : List FeelVal => ∀ v ∈ kept, v ∈ items) (filterItems idx items) (filterItems idx' items) := by
  induction items with
  | nil => exact .pure fun _ hv => hv
  | cons item rest ih =>
    refine (Agree.push (hitems item List.mem_cons_self)).bind fun _ _ => ?_
    refine h.attempt.bind fun keep hkeep => ?_
    refine Agree.pop.bind fun _ _ => ?_
    refine (Agree.ofExcept hkeep).bind fun keep _ => ?_
    refine (ih fun v hv => hitems v (List.mem_cons_of_mem _ hv)).bind fun kept hkept => .pure ?_
    intro v hv
    split at hv
    · rcases List.mem_cons.mp hv with rfl | hv
      · exact List.mem_cons_self
      · exact List.mem_cons_of_mem _ (hkept v hv)
    · exact List.mem_cons_of_mem _ (hkept v hv)

theorem evalIndex_agree (hK : Structural K) (hframe : ∀ v, K v → W (itemFrame v)) {obj obj' idx idx' : EvalM FeelVal}
    (hobj : Agree W P K obj obj') (hidx : Agree W P (fun _ => True) idx idx') :
    Agree W P K (evalIndex obj idx) (evalIndex obj' idx') := by
  refine hobj.bind fun v hv => ?_
  have hsingle : ∀ w ∈ [v], K w := by
    intro w hw
    rw [List.mem_singleton.mp hw]
    exact hv
  have hfilter {list : List FeelVal} (hlist : ∀ w ∈ list, K w) :
      Agree W P K (do return .list (← filterItems idx list)) (do return .list (← filterItems idx' list)) := by
    refine (filterItems_agree hidx fun w hw => hframe w (hlist w hw)).bind fun kept hkept => .pure ?_
    exact (hK.list kept).mpr fun w hw => hlist w (hkept w hw)
  refine hidx.attempt.bind fun r _ => ?_
  split
  · split
    · exact .pure (hK.selectAt ((hK.list _).mp hv) _)
    · exact .pure (hK.selectAt hsingle _)
  · split
    · exact hfilter ((hK.list _).mp hv)
    · exact hfilter hsingle

/-- What a clause of `for` computes: the results and the frame it passes on. -/
def PairIn (K : FeelVal → Prop) (W : Frame → Prop) (r : List FeelVal × Frame) : Prop := (∀ v ∈ r.1, K v) ∧ W r.2

theorem overItems_agree {name : String} (hremove : ∀ frame, W frame → W (Frame.remove frame name))
    {rest rest' : Frame → EvalM (List FeelVal × Frame)}
    (h : ∀ frame : Frame, W frame → Agree W P (PairIn K W) (rest frame) (rest' frame)) {items : List FeelVal}
    (hitems : ∀ v ∈ items, ∀ frame, W frame → W (Frame.insert frame name v)) {frame : Frame} (hframe : W frame) :
    Agree W P (PairIn K W) (overItems name rest items frame) (overItems name rest' items frame) := by
  induction items generalizing frame with
  | nil => exact .pure ⟨fun _ hv => by (cases hv), hremove frame hframe⟩
  | cons item items ih =>
    refine (h _ (hitems item List.mem_cons_self frame hframe)).bind ?_
    rintro ⟨out, after⟩ ⟨hout, hafter⟩
    refine (ih (fun v hv => hitems v (List.mem_cons_of_mem _ hv)) hafter).bind ?_
    rintro ⟨more, last⟩ ⟨hmore, hlast⟩
    refine .pure ⟨?_, hlast⟩
    intro v hv
    rcases List.mem_append.mp hv with hv | hv
    · exact hout v hv
    · exact hmore v hv

end

/-! ## Nodes -/

section

variable {W : Frame → Prop} {P : Call → (Result → Prop) → Prop} {K : FeelVal → Prop} {base base' : Vars}

theorem lookup_agree (hK : Structural K) {name : String} (hbase : base[name]? = base'[name]?)
    (hframe : ∀ frame v, W frame → Frame.get frame name = some v → K v) :
    Agree W P (fun v : Option FeelVal => ∀ w ∈ v, K w) (lookup base name) (lookup base' name) := by
  refine Agree.getScopes.bind fun scopes hscopes => ?_
  rw [hbase]
  refine .pure ?_
  intro w hw
  have hor : (scopes.findSome? (Frame.get · name)).or (base'[name]?.map FeelVal.fromValue) = some w := by
    rw [← hw, Option.orElse_eq_orElse, Option.orElse_eq_or]
  rcases Option.or_eq_some_iff.mp hor with hw | ⟨-, hw⟩
  · obtain ⟨frame, hmem, hget⟩ := List.exists_of_findSome?_eq_some hw
    exact hframe frame w (hscopes frame hmem) hget
  · obtain ⟨v, -, rfl⟩ := Option.map_eq_some_iff.mp hw
    exact hK.fromValue v

/-- The frame that a function literal captures. -/
theorem closure_of_scopes {scopes : List Frame} (hnil : W []) (hextend : ∀ frame updates, W frame → W updates →
    W (Frame.extend frame updates)) (h : ∀ frame ∈ scopes, W frame) : W (scopes.reverse.foldl Frame.extend []) := by
  have hfold : ∀ (frames : List Frame) (frame : Frame), (∀ f ∈ frames, W f) → W frame →
      W (frames.foldl Frame.extend frame) := by
    intro frames
    induction frames with
    | nil => exact fun _ _ hframe => hframe
    | cons f rest ih =>
      intro frame hframes hframe
      exact ih _ (fun g hg => hframes g (List.mem_cons_of_mem _ hg)) (hextend _ _ hframe (hframes f List.mem_cons_self))
  exact hfold _ _ (fun f hf => h f (List.mem_reverse.mp hf)) hnil

variable [Texts]

/-- Items, each of which has a property of its place. -/
theorem evalItems_agree {items : List Node} {K : Nat → FeelVal → Prop}
    (h : ∀ i n, items[i]? = some n → Agree W P (K i) (evalNode base n) (evalNode base' n)) :
    Agree W P (fun vs : List FeelVal => ∀ i v, vs[i]? = some v → K i v) (evalItems base items)
      (evalItems base' items) := by
  induction items generalizing K with
  | nil => exact .pure fun i v hv => by simp at hv
  | cons n rest ih =>
    have hn : Agree W P (K 0) (evalNode base n) (evalNode base' n) := h 0 n rfl
    have hrest := ih (K := fun i => K (i + 1)) fun i m hm => h (i + 1) m hm
    refine hn.bind fun v hv => hrest.bind fun vs hvs => .pure ?_
    intro i w hw
    cases i with
    | zero =>
      cases hw
      exact hv
    | succ i => exact hvs i w hw

theorem evalEntries_agree {entries : List (String × Node)} {k : String × Node → FeelVal → Prop}
    (h : ∀ e ∈ entries, Agree W P (k e) (evalNode base e.2) (evalNode base' e.2))
    (hW : ∀ e ∈ entries, ∀ v frame, k e v → W frame → W (Frame.insert frame e.1 v))
    (hall : ∀ e ∈ entries, ∀ v, k e v → K v) {map : Frame} (hmap : map.All K) :
    Agree W P (Frame.All K) (evalEntries base entries map) (evalEntries base' entries map) := by
  induction entries generalizing map with
  | nil => exact .pure hmap
  | cons entry rest ih =>
    obtain ⟨key, n⟩ := entry
    refine (h (key, n) List.mem_cons_self).bind fun v hv => ?_
    refine (Agree.insertTop fun frame hframe => hW (key, n) List.mem_cons_self v frame hv hframe).bind fun _ _ => ?_
    exact ih (fun e he => h e (List.mem_cons_of_mem _ he)) (fun e he => hW e (List.mem_cons_of_mem _ he))
      (fun e he => hall e (List.mem_cons_of_mem _ he)) (hmap.insert key (hall (key, n) List.mem_cons_self v hv))

theorem evalFor_agree {clauses : List (String × Node)} {k : String × Node → FeelVal → Prop}
    (h : ∀ c ∈ clauses, Agree W P (k c) (evalNode base c.2) (evalNode base' c.2))
    (hitems : ∀ c ∈ clauses, ∀ v, k c v → ∀ item ∈ iterable v, ∀ frame, W frame → W (Frame.insert frame c.1 item))
    (hremove : ∀ name frame, W frame → W (Frame.remove frame name)) {body body' : EvalM FeelVal}
    (hbody : Agree W P K body body') {frame : Frame} (hframe : W frame) :
    Agree W P (PairIn K W) (evalFor base body clauses frame) (evalFor base' body' clauses frame) := by
  induction clauses generalizing frame with
  | nil =>
    refine (Agree.push hframe).bind fun _ _ => ?_
    refine hbody.attempt.bind fun r hr => ?_
    refine Agree.pop.bind fun _ _ => ?_
    refine (Agree.ofExcept hr).bind fun v hv => .pure ⟨?_, hframe⟩
    exact List.forall_mem_cons.mpr ⟨hv, fun _ h => by cases h⟩
  | cons clause rest ih =>
    obtain ⟨name, source⟩ := clause
    refine (Agree.push hframe).bind fun _ _ => ?_
    refine (h (name, source) List.mem_cons_self).bind fun v hv => ?_
    refine Agree.pop.bind fun _ _ => ?_
    refine overItems_agree (hremove name) (fun frame hframe => ?_) (hitems (name, source) List.mem_cons_self v hv) hframe
    exact ih (fun c hc => h c (List.mem_cons_of_mem _ hc)) (fun c hc => hitems c (List.mem_cons_of_mem _ hc)) hframe

theorem evalNamed_agree (params : List String) (unknown : String → FeelError) {args : List (String × Node)}
    (h : ∀ a ∈ args, Agree W P K (evalNode base a.2) (evalNode base' a.2)) {slots : List FeelVal}
    (hslots : ∀ v ∈ slots, K v) :
    Agree W P (fun vs : List FeelVal => ∀ v ∈ vs, K v) (evalNamed base params unknown args slots)
      (evalNamed base' params unknown args slots) := by
  induction args generalizing slots with
  | nil => exact .pure hslots
  | cons arg rest ih =>
    obtain ⟨k, n⟩ := arg
    unfold evalNamed
    split
    · exact .fail _
    · refine (h (k, n) List.mem_cons_self).bind fun v hv => ?_
      refine ih (fun a ha => h a (List.mem_cons_of_mem _ ha)) fun w hw => ?_
      rcases List.mem_or_eq_of_mem_set hw with hw | rfl
      · exact hslots w hw
      · exact hv

theorem evalBound_agree {bound : Option Node} (h : ∀ n ∈ bound, Agree W P K (evalNode base n) (evalNode base' n)) :
    Agree W P (fun v : Option FeelVal => ∀ w ∈ v, K w) (evalBound base bound) (evalBound base' bound) := by
  cases bound with
  | none => exact .pure fun _ hw => by cases hw
  | some n =>
    refine (h n rfl).bind fun v hv => .pure ?_
    intro w hw
    cases hw
    exact hv

end

/-! ## Sorting -/

section

variable {P : Call → (Result → Prop) → Prop} {K : FeelVal → Prop} {cmp : FeelVal → FeelVal → Steps Ordering}

theorem insertBy_alike (hcmp : ∀ a b : FeelVal, K a → K b → Calls.Alike P (fun _ => True) (cmp a b) (cmp a b))
    {a : FeelVal} (ha : K a) {items : List FeelVal} (hitems : ∀ v ∈ items, K v) :
    Calls.Alike P (fun vs : List FeelVal => ∀ v ∈ vs, K v) (insertBy cmp a items) (insertBy cmp a items) := by
  induction items with
  | nil => exact .pure (List.forall_mem_cons.mpr ⟨ha, fun _ h => by cases h⟩)
  | cons b bs ih =>
    obtain ⟨hb, hbs⟩ := List.forall_mem_cons.mp hitems
    refine (hcmp a b ha hb).bind fun o _ => ?_
    split
    · exact (ih hbs).bind fun vs hvs => .pure (List.forall_mem_cons.mpr ⟨hb, hvs⟩)
    · exact .pure (List.forall_mem_cons.mpr ⟨ha, hitems⟩)

theorem sortBy_alike (hcmp : ∀ a b : FeelVal, K a → K b → Calls.Alike P (fun _ => True) (cmp a b) (cmp a b))
    {items : List FeelVal} (hitems : ∀ v ∈ items, K v) :
    Calls.Alike P (fun vs : List FeelVal => ∀ v ∈ vs, K v) (sortBy cmp items) (sortBy cmp items) := by
  induction items with
  | nil => exact .pure fun _ h => by cases h
  | cons a as ih =>
    obtain ⟨ha, has⟩ := List.forall_mem_cons.mp hitems
    exact (ih has).bind fun vs hvs => insertBy_alike hcmp ha hvs

/-- `sort` with a comparison that may be called on two items. -/
theorem sort_alike (hK : Structural K) {args : List FeelVal} (hlist : K (Builtins.arg args 0))
    (hfunc : ∀ func, args[1]?.bind FeelVal.asFunc = some func → ∀ a b : FeelVal, K a → K b → ∃ R, P ⟨func, [a, b], 0⟩ R) :
    Calls.Alike P (Returns K) (sort args) (sort args) := by
  unfold sort
  split
  · exact .pure (.error _)
  · next list heq =>
    have hitems := Builtins.items_of_wantList hK hlist heq
    split
    · next func hsome =>
      have hcmp (a b : FeelVal) (ha : K a) (hb : K b) :
          Calls.Alike P (fun _ => True) (precedes func a b) (precedes func a b) := by
        obtain ⟨R, hR⟩ := hfunc func hsome a b ha hb
        exact .call hR fun _ _ => .pure trivial
      exact (sortBy_alike hcmp hitems).bind fun vs hvs => .pure (.ok ((hK.list vs).mpr hvs))
    · exact (sortBy_alike (fun _ _ _ _ => .pure trivial) hitems).bind fun vs hvs => .pure (.ok ((hK.list vs).mpr hvs))

/-- A builtin other than `sort`, which may be called again until it returns. -/
theorem callBuiltin_alike [Texts] (hK : Structural K) {name : String} (hname : name ≠ "sort") {args : List FeelVal}
    (hargs : ∀ v ∈ args, K v) {fuel : Nat}
    (hagain : Builtins.callWithin fuel name args = none → P ⟨.builtin name, args, fuel + 1⟩ (Returns K)) :
    Calls.Alike P (Returns K) (callBuiltin name args fuel) (callBuiltin name args fuel) := by
  unfold callBuiltin
  split
  · exact absurd rfl hname
  · refine .draw fun d => .pure (.ok ?_)
    cases d.now with
    | none => exact hK.null
    | some now => exact hK.scalar _ trivial
  · refine .draw fun d => .pure (.ok ?_)
    cases d.now with
    | none => exact hK.null
    | some now => exact hK.scalar _ trivial
  · exact .draw fun d => .pure (.ok (hK.str d.uuid))
  · exact .draw fun d => .pure (.ok (hK.scalar _ trivial))
  · split
    · next r hr => exact .pure (callWithin_returns hK hargs hr)
    · next hnone => exact .call (hagain hnone) fun _ hr => .pure hr

end

end NanoBpm.FeelExpr
