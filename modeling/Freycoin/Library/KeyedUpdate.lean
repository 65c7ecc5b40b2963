import Mathlib.Data.List.AList

/-! Updating a map at the keys of a list of entries whose keys are distinct. -/

namespace KeyedUpdate

variable {κ β γ M : Type*} [DecidableEq κ]

/-- Store `value` at `key` of an association list, or remove `key` when it is `none`. -/
def store (map : AList fun _ : κ => β) (key : κ) : Option β → AList fun _ : κ => β
  | some value => map.insert key value
  | none => map.erase key

@[simp] theorem lookup_store_self (map : AList fun _ : κ => β) (key : κ) (value : Option β) :
    (store map key value).lookup key = value := by
  cases value with
  | some value => exact AList.lookup_insert map
  | none => exact AList.lookup_erase key map

theorem lookup_store_ne (map : AList fun _ : κ => β) {key other : κ} (value : Option β)
    (ne : other ≠ key) : (store map key value).lookup other = map.lookup other := by
  cases value with
  | some value => exact AList.lookup_insert_ne ne
  | none => exact AList.lookup_erase_ne ne

variable (lookup : M → κ → Option β)

/-- `step` changes the map at the entry's key only, to what `update` makes of the old value
and the entry; it may fail only where `update` does. -/
def UpdatesAt (update : Option β → γ → Option (Option β))
    (step : M → (Σ _ : κ, γ) → Option M) : Prop :=
  ∀ map entry value, update (lookup map entry.1) entry.2 = some value →
    ∃ map', step map entry = some map' ∧ lookup map' entry.1 = value ∧
      ∀ key, key ≠ entry.1 → lookup map' key = lookup map key

variable {lookup} {update : Option β → γ → Option (Option β)} {step : M → (Σ _ : κ, γ) → Option M}

theorem foldlM_of_updatesAt (updates : UpdatesAt lookup update step) :
    ∀ (entries : List (Σ _ : κ, γ)) (map : M), entries.NodupKeys →
      (∀ entry ∈ entries, update (lookup map entry.1) entry.2 ≠ none) →
      ∃ map', entries.foldlM step map = some map' ∧
        (∀ key input, entries.dlookup key = some input →
          update (lookup map key) input = some (lookup map' key)) ∧
        ∀ key, key ∉ entries.keys → lookup map' key = lookup map key
  | [], map, _, _ => ⟨map, rfl, fun _ _ found => (by cases found), fun _ _ => rfl⟩
  | entry :: rest, map, distinct, succeeds => by
      obtain ⟨value, updated⟩ :=
        Option.ne_none_iff_exists'.mp (succeeds entry List.mem_cons_self)
      obtain ⟨map₁, stepped, atKey, elsewhere⟩ := updates map entry value updated
      have fresh : entry.1 ∉ rest.keys := List.notMem_keys_of_nodupKeys_cons distinct
      -- the later entries have other keys, so they still see the first values
      have unchanged : ∀ other ∈ rest, lookup map₁ other.1 = lookup map other.1 := by
        intro other member
        exact elsewhere other.1 fun same => fresh (same ▸ List.mem_keys_of_mem member)
      obtain ⟨map₂, ran, inputs, others⟩ :=
        foldlM_of_updatesAt updates rest map₁ (List.nodupKeys_of_nodupKeys_cons distinct)
          fun other member => by
            rw [unchanged other member]
            exact succeeds other (List.mem_cons_of_mem _ member)
      refine ⟨map₂, by rw [List.foldlM_cons, stepped, Option.bind_eq_bind, Option.bind_some,
        ran], ?_, ?_⟩
      · intro key input found
        by_cases atEntry : key = entry.1
        · subst atEntry
          rw [List.dlookup_cons_eq] at found
          cases found
          rw [others entry.1 fresh, atKey, updated]
        · rw [List.dlookup_cons_ne _ _ atEntry] at found
          rw [← inputs key input found, ← elsewhere key atEntry]
      · intro key absent
        rw [List.keys_cons, List.mem_cons, not_or] at absent
        rw [others key absent.2, elsewhere key absent.1]

theorem foldl_of_updatesAt {total : Option β → γ → Option β} {apply : M → (Σ _ : κ, γ) → M}
    (updates : UpdatesAt lookup (fun old input => some (total old input))
      fun map entry => some (apply map entry))
    (entries : List (Σ _ : κ, γ)) (map : M) (distinct : entries.NodupKeys) :
    (∀ key input, entries.dlookup key = some input →
      lookup (entries.foldl apply map) key = total (lookup map key) input) ∧
    ∀ key, key ∉ entries.keys → lookup (entries.foldl apply map) key = lookup map key := by
  obtain ⟨map', ran, inputs, others⟩ :=
    foldlM_of_updatesAt updates entries map distinct fun _ _ => Option.some_ne_none _
  have pure : entries.foldlM (fun map entry => some (apply map entry)) map =
      some (entries.foldl apply map) := List.foldlM_pure
  have folded : entries.foldl apply map = map' := by
    rw [pure] at ran
    exact Option.some.inj ran
  subst folded
  exact ⟨fun key input found => (Option.some.inj (inputs key input found)).symm, others⟩

theorem dlookup_filter (keep : (Σ _ : κ, γ) → Bool) :
    ∀ (entries : List (Σ _ : κ, γ)), entries.NodupKeys → ∀ key,
      (entries.filter keep).dlookup key =
        (entries.dlookup key).filter fun input => keep ⟨key, input⟩
  | [], _, _ => rfl
  | entry :: rest, distinct, key => by
      have restDistinct := List.nodupKeys_of_nodupKeys_cons distinct
      by_cases atEntry : key = entry.1
      · subst atEntry
        have absent : entry.1 ∉ (rest.filter keep).keys := fun member =>
          List.notMem_keys_of_nodupKeys_cons distinct
            ((List.filter_sublist.map Sigma.fst).subset member)
        rw [List.dlookup_cons_eq, List.filter_cons]
        split_ifs with kept
        · rw [List.dlookup_cons_eq, Option.filter_some, if_pos kept]
        · rw [List.dlookup_eq_none.mpr absent, Option.filter_some, if_neg kept]
      · rw [List.filter_cons, List.dlookup_cons_ne _ _ atEntry]
        split_ifs
        · rw [List.dlookup_cons_ne _ _ atEntry, dlookup_filter keep rest restDistinct key]
        · exact dlookup_filter keep rest restDistinct key

end KeyedUpdate
