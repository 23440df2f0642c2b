import NanoBpm.Lib.Climb
import NanoBpm.ReadModel.Tables

/-!
# Root process instances (`read-model/src/store.rs:1126-1285`)

The walk to the root remembers the root of every instance that it came through, unless it ended in a circle. What is remembered is the top
above an instance, which the walk without memory finds too.
-/

namespace NanoBpm.ReadModel

open Climb

/-- The rows that a response projects: each is filed under its key. -/
structure ParentGraph where
  rows : KeyMap ProcessInstanceRow
  keyed : ∀ (k : Key) (r : ProcessInstanceRow), rows[k]? = some r → r.key = k

abbrev RootCache := KeyMap Key

namespace ParentGraph

variable (g : ParentGraph)

def lookup (key : Key) : Option ProcessInstanceRow := g.rows[key]?

/-- Every key of the path has this root. -/
def seed (path : List Key) (current root : Key) (cache : RootCache) : RootCache :=
  (path.foldl (fun cache k => cache.insert k root) cache).insert current root

/-- `walk_root_to_top` (store.rs:1213), in at most so many rounds. -/
def walkRootToTop : Nat → Key → List Key → List Key → RootCache → Option (Key × RootCache)
  | 0, _, _, _, _ => none
  | n + 1, current, path, visited, cache =>
    match cache[current]? with
    | some cached => some (cached, seed path current cached cache)
    | none =>
      if current ∈ visited then some (current, cache)
      else match g.lookup current with
        | none => some (current, seed path current current cache)
        | some row => match row.parentProcessInstanceKey with
          | none => some (row.key, seed path current row.key cache)
          | some parent => walkRootToTop n parent (path ++ [current]) (current :: visited) cache

/-- `resolve_root_with_cache`. -/
def resolveRootWithCache (rounds : Nat) (key : Key) (cache : RootCache) : Option (Key × RootCache) :=
  match cache[key]? with
  | some root => some (root, cache)
  | none => g.walkRootToTop rounds key [] [] cache

/-- `resolve_root_from_row_with_cache`. -/
def resolveRootFromRowWithCache (rounds : Nat) (entry : ProcessInstanceRow) (cache : RootCache) : Option (Key × RootCache) :=
  match cache[entry.key]? with
  | some root => some (root, cache)
  | none =>
    match entry.parentProcessInstanceKey with
    | none => some (entry.key, cache.insert entry.key entry.key)
    | some parent => g.walkRootToTop rounds parent [entry.key] [entry.key] cache

/-- `resolve_root_process_instance_key`: with a cache of its own. -/
def resolveRootProcessInstanceKey (rounds : Nat) (key : Key) : Option Key := (g.resolveRootWithCache rounds key ∅).map (·.1)

/-- A call on a `RootResolver`; a row comes out of the table. -/
inductive Call
  | key (key : Key)
  | row (row : ProcessInstanceRow) (h : g.lookup row.key = some row)

variable {g}

/-- The instance that a call asks for. -/
def Call.instanceKey : g.Call → Key
  | .key k => k
  | .row r _ => r.key

def Call.resolve (rounds : Nat) (cache : RootCache) : g.Call → Option (Key × RootCache)
  | .key k => g.resolveRootWithCache rounds k cache
  | .row r _ => g.resolveRootFromRowWithCache rounds r cache

/-- The calls on one `RootResolver`, one after another. -/
def resolveAll (rounds : Nat) : RootCache → List g.Call → Option (List Key)
  | _, [] => some []
  | cache, call :: calls => do
    let (root, cache) ← call.resolve rounds cache
    let roots ← resolveAll rounds cache calls
    return root :: roots

/-! ## What is remembered -/

variable (g) in
/-- The parent of an instance with a row that has one. -/
def parent (key : Key) : Option Key := (g.lookup key).bind (·.parentProcessInstanceKey)

/-- Every entry of the cache is the top above its key. -/
def Valid (g : ParentGraph) (cache : RootCache) : Prop := ∀ (k r : Key), cache[k]? = some r → Tops g.parent k r

theorem valid_empty (g : ParentGraph) : g.Valid ∅ := fun k r h => by simp at h

theorem Valid.insert {cache : RootCache} {k r : Key} (h : g.Valid cache) (hk : Tops g.parent k r) : g.Valid (cache.insert k r) := by
  intro k' r' heq
  rw [Std.ExtTreeMap.getElem?_insert] at heq
  split at heq
  · next hcmp =>
    obtain rfl := Std.LawfulEqCmp.eq_of_compare hcmp
    exact Option.some.inj heq ▸ hk
  · exact h k' r' heq

theorem Valid.seed {cache : RootCache} {path : List Key} {current root : Key} (h : g.Valid cache) (hroot : Tops g.parent current root)
    (hpath : ∀ k ∈ path, Relation.ReflTransGen (Above g.parent) k current) : g.Valid (seed path current root cache) := by
  unfold ParentGraph.seed
  refine Valid.insert ?_ hroot
  induction path generalizing cache with
  | nil => exact h
  | cons k path ih =>
    obtain ⟨hk, hrest⟩ := List.forall_mem_cons.mp hpath
    exact ih (h.insert (hroot.of_trans hk)) hrest

variable {rounds m : Nat} {current key r r' : Key} {path visited : List Key} {cache cache' : RootCache}

/-- The walk with a cache remembers tops only, and ends where the climb without one does. -/
theorem walk_spec (hcache : g.Valid cache) (hpath : ∀ k ∈ path, Relation.TransGen (Above g.parent) k current)
    (hvisited : ∀ k ∈ visited, Relation.TransGen (Above g.parent) k current)
    (hwalk : g.walkRootToTop rounds current path visited cache = some (r, cache')) :
    g.Valid cache' ∧ ∀ m r', climb g.parent m visited current = some r' → r' = r := by
  induction rounds generalizing current path visited with
  | zero => cases hwalk
  | succ n ih =>
    have hbelow : ∀ k ∈ path, Relation.ReflTransGen (Above g.parent) k current := fun k hk => (hpath k hk).to_reflTransGen
    rw [walkRootToTop] at hwalk
    have htop {root : Key} (hroot : Tops g.parent current root) (heq : some (root, seed path current root cache) = some (r, cache')) :
        g.Valid cache' ∧ ∀ m r', climb g.parent m visited current = some r' → r' = r := by
      obtain ⟨rfl, rfl⟩ := Prod.mk.inj (Option.some.inj heq)
      exact ⟨hcache.seed hroot hbelow, fun m r' hclimb => climb_of_tops hroot hvisited hclimb⟩
    split at hwalk
    · next cached hcached => exact htop (hcache _ _ hcached) hwalk
    · split at hwalk
      · next hmem =>
        obtain ⟨rfl, rfl⟩ := Prod.mk.inj (Option.some.inj hwalk)
        refine ⟨hcache, fun m r' hclimb => ?_⟩
        cases m with
        | zero => cases hclimb
        | succ m =>
          rw [climb, if_pos hmem] at hclimb
          exact (Option.some.inj hclimb).symm
      · next hnot =>
        cases hrow : g.lookup current with
        | none =>
          rw [hrow] at hwalk
          exact htop (tops_self (by rw [parent, hrow]; rfl)) hwalk
        | some row =>
          rw [hrow] at hwalk
          dsimp only at hwalk
          have hup : g.parent current = row.parentProcessInstanceKey := by
            rw [parent, hrow]
            rfl
          cases hparent : row.parentProcessInstanceKey with
          | none =>
            rw [hparent] at hwalk hup
            dsimp only at hwalk
            rw [g.keyed current row hrow] at hwalk
            exact htop (tops_self hup) hwalk
          | some p =>
            rw [hparent] at hwalk hup
            dsimp only at hwalk
            have habove : Above g.parent current p := hup
            have hpath' : ∀ k ∈ path ++ [current], Relation.TransGen (Above g.parent) k p := by
              intro k hk
              rcases List.mem_append.mp hk with hk | hk
              · exact (hpath k hk).tail habove
              · exact List.mem_singleton.mp hk ▸ .single habove
            have hvisited' : ∀ k ∈ current :: visited, Relation.TransGen (Above g.parent) k p := by
              intro k hk
              rcases List.mem_cons.mp hk with rfl | hk
              · exact .single habove
              · exact (hvisited k hk).tail habove
            obtain ⟨hvalid, hsame⟩ := ih hpath' hvisited' hwalk
            refine ⟨hvalid, fun m r' hclimb => ?_⟩
            cases m with
            | zero => cases hclimb
            | succ m =>
              rw [climb, if_neg hnot] at hclimb
              simp only [hup] at hclimb
              exact hsame m r' hclimb

theorem mem_keys_of_parent (h : (g.parent key).isSome) : key ∈ g.rows.keys := by
  rw [Std.ExtTreeMap.mem_keys, Std.ExtTreeMap.mem_iff_isSome_getElem?]
  unfold parent at h
  cases hrow : g.lookup key with
  | none =>
    rw [hrow] at h
    cases h
  | some row =>
    have hget : g.rows[key]? = some row := hrow
    rw [hget]
    rfl

/-- A walk ends within as many rounds as the climb does. -/
theorem walk_isSome (hclimb : (climb g.parent rounds visited current).isSome) :
    (g.walkRootToTop rounds current path visited cache).isSome := by
  induction rounds generalizing current path visited with
  | zero => cases hclimb
  | succ n ih =>
    rw [walkRootToTop]
    split
    · rfl
    · split
      · rfl
      · next hnot =>
        rw [climb, if_neg hnot] at hclimb
        cases hrow : g.lookup current with
        | none => rfl
        | some row =>
          dsimp only
          cases hparent : row.parentProcessInstanceKey with
          | none => rfl
          | some p =>
            have hup : g.parent current = some p := by
              rw [parent, hrow, Option.bind_some, hparent]
            simp only [hup] at hclimb
            exact ih hclimb

/-! ## Calls -/

variable {call : g.Call}

theorem climb_key_isSome (hrounds : g.rows.size < rounds) (key : Key) : (climb g.parent rounds [] key).isSome :=
  climb_isSome (fun _ => mem_keys_of_parent) .nil (List.nil_subset _) (by simpa [Std.ExtTreeMap.length_keys] using hrounds) key

theorem resolve_isSome (hrounds : g.rows.size < rounds) (cache : RootCache) (call : g.Call) : (call.resolve rounds cache).isSome := by
  cases call with
  | key k =>
    change (g.resolveRootWithCache rounds k cache).isSome
    unfold resolveRootWithCache
    split
    · rfl
    · exact walk_isSome (climb_key_isSome hrounds k)
  | row entry h =>
    change (g.resolveRootFromRowWithCache rounds entry cache).isSome
    unfold resolveRootFromRowWithCache
    split
    · rfl
    · cases hparent : entry.parentProcessInstanceKey with
      | none => rfl
      | some p =>
        have hkey : entry.key ∈ g.rows.keys := mem_keys_of_parent (by rw [parent, h, Option.bind_some, hparent]; rfl)
        refine walk_isSome (climb_isSome (fun _ => mem_keys_of_parent) (List.nodup_singleton _) ?_ ?_ p)
        · exact List.cons_subset.mpr ⟨hkey, List.nil_subset _⟩
        · rw [Std.ExtTreeMap.length_keys, List.length_singleton]
          omega

theorem resolve_spec (hcache : g.Valid cache) (h : call.resolve rounds cache = some (r, cache')) :
    g.Valid cache' ∧ ∀ m r', climb g.parent m [] call.instanceKey = some r' → r' = r := by
  have hcached {root : Key} (hroot : cache[call.instanceKey]? = some root) (heq : some (root, cache) = some (r, cache')) :
      g.Valid cache' ∧ ∀ m r', climb g.parent m [] call.instanceKey = some r' → r' = r := by
    obtain ⟨rfl, rfl⟩ := Prod.mk.inj (Option.some.inj heq)
    exact ⟨hcache, fun m r' => climb_of_tops (hcache _ _ hroot) fun v hv => absurd hv List.not_mem_nil⟩
  cases call with
  | key k =>
    change g.resolveRootWithCache rounds k cache = some (r, cache') at h
    unfold resolveRootWithCache at h
    split at h
    · next root hroot => exact hcached hroot h
    · exact walk_spec hcache (fun v hv => absurd hv List.not_mem_nil) (fun v hv => absurd hv List.not_mem_nil) h
  | row entry hrow =>
    change g.resolveRootFromRowWithCache rounds entry cache = some (r, cache') at h
    change g.Valid cache' ∧ ∀ m r', climb g.parent m [] entry.key = some r' → r' = r
    have hup : g.parent entry.key = entry.parentProcessInstanceKey := by
      rw [parent, hrow]
      rfl
    unfold resolveRootFromRowWithCache at h
    split at h
    · next root hroot => exact hcached hroot h
    · cases hparent : entry.parentProcessInstanceKey with
      | none =>
        rw [hparent] at h hup
        obtain ⟨rfl, rfl⟩ := Prod.mk.inj (Option.some.inj h)
        exact ⟨hcache.insert (tops_self hup), fun m r' => climb_of_tops (tops_self hup) fun v hv => absurd hv List.not_mem_nil⟩
      | some p =>
        rw [hparent] at h hup
        have habove : ∀ v ∈ [entry.key], Relation.TransGen (Above g.parent) v p := fun v hv =>
          List.mem_singleton.mp hv ▸ .single hup
        obtain ⟨hvalid, hsame⟩ := walk_spec hcache habove habove h
        refine ⟨hvalid, fun m r' hclimb => ?_⟩
        cases m with
        | zero => cases hclimb
        | succ m =>
          rw [climb, if_neg List.not_mem_nil] at hclimb
          simp only [hup] at hclimb
          exact hsame m r' hclimb

theorem resolveRootProcessInstanceKey_eq (hrounds : g.rows.size < rounds) (key : Key) :
    g.resolveRootProcessInstanceKey rounds key = climb g.parent rounds [] key := by
  obtain ⟨⟨r, cache⟩, hr⟩ := Option.isSome_iff_exists.mp (resolve_isSome hrounds ∅ (.key key : g.Call))
  obtain ⟨r', hr'⟩ := Option.isSome_iff_exists.mp (climb_key_isSome hrounds key)
  have hsame := (resolve_spec (valid_empty g) hr).2 rounds r' hr'
  rw [hr', hsame]
  exact congrArg (Option.map (·.1)) hr

/-- What a walk without memory ends at: the top-level ancestor or the first missing one, or the first member of a circle that it comes to
again. -/
def RootOf (g : ParentGraph) (key root : Key) : Prop :=
  ∃ chain : List Key, ∃ last, chain.head? = some key ∧ chain.getLast? = some last ∧ chain.IsChain (Above g.parent) ∧ chain.Nodup ∧
    ((g.lookup last = none ∧ root = last) ∨
      (∃ row, g.lookup last = some row ∧ row.parentProcessInstanceKey = none ∧ root = last) ∨
      (g.parent last = some root ∧ root ∈ chain))

theorem rootOf_climb (h : climb g.parent rounds [] key = some r) : g.RootOf key r := by
  obtain ⟨chain, last, hlast, hhead, hchain, hend⟩ := climb_chain h
  rcases hend with ⟨hmem, -⟩ | ⟨hnodup, -, hend⟩
  · exact absurd hmem List.not_mem_nil
  · have hkey : chain.head? = some key := by
      cases chain with
      | nil => cases hlast
      | cons x chain => exact congrArg some (hhead x rfl)
    refine ⟨chain, last, hkey, hlast, hchain, hnodup, ?_⟩
    rcases hend with ⟨hup, rfl⟩ | ⟨hup, hmem⟩
    · cases hrow : g.lookup r with
      | none => exact .inl ⟨rfl, rfl⟩
      | some row =>
        rw [parent, hrow] at hup
        exact .inr (.inl ⟨row, rfl, hup, rfl⟩)
    · exact .inr (.inr ⟨hup, hmem.resolve_right List.not_mem_nil⟩)

theorem resolveAll_spec (hrounds : g.rows.size < rounds) (hcache : g.Valid cache) (calls : List g.Call) :
    ∃ roots, resolveAll rounds cache calls = some roots ∧ List.Forall₂ (fun call root =>
      g.resolveRootProcessInstanceKey rounds call.instanceKey = some root ∧ g.RootOf call.instanceKey root) calls roots := by
  induction calls generalizing cache with
  | nil => exact ⟨[], rfl, .nil⟩
  | cons call calls ih =>
    obtain ⟨⟨root, cache'⟩, hroot⟩ := Option.isSome_iff_exists.mp (resolve_isSome hrounds cache call)
    obtain ⟨hvalid, hsame⟩ := resolve_spec hcache hroot
    obtain ⟨roots, hroots, hall⟩ := ih hvalid
    obtain ⟨r, hr⟩ := Option.isSome_iff_exists.mp (climb_key_isSome hrounds call.instanceKey)
    obtain rfl := hsame rounds r hr
    refine ⟨r :: roots, ?_, .cons ⟨?_, rootOf_climb hr⟩ hall⟩
    · rw [resolveAll, hroot]
      simp only [Option.bind_eq_bind, Option.bind_some, hroots]
      rfl
    · rw [resolveRootProcessInstanceKey_eq hrounds, hr]

/-- Every call on a resolver ends, with the key that a walk without memory finds. -/
theorem rootResolver_agrees (g : ParentGraph) (calls : List g.Call) : ∃ n, ∀ rounds ≥ n, ∃ roots, resolveAll rounds ∅ calls = some roots ∧
    List.Forall₂ (fun call root => g.resolveRootProcessInstanceKey rounds call.instanceKey = some root ∧
      g.RootOf call.instanceKey root) calls roots :=
  ⟨g.rows.size + 1, fun _ hrounds => resolveAll_spec hrounds (valid_empty g) calls⟩

end ParentGraph

end NanoBpm.ReadModel
