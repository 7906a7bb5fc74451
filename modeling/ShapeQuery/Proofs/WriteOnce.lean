import ShapeQuery.Proofs.RegistrySound
import Mathlib.Data.Set.Card

/-!
# Registries are written once

A registry only ever gains entries.  Resolving a shape leaves the registry as it
was, or keeps the checked form of a shape that was not kept before
(`resolve_snd_cases`); so no entry is replaced or lost, and no identity has two
entries.  Every call does to a registry what some resolving does, and what
resolving preserves, a whole run of calls preserves, the calls that fail halfway
included.
-/

namespace ShapeQuery
namespace Registry

variable {ι : Type}

/-- The identities of the resolved shapes, the latest first. -/
def identities (r : Registry ι) : List ι :=
  r.entries.map Prod.fst

@[simp] theorem identities_insert
    (r : Registry ι) (i : ι) (c : CheckedShape ι) :
    (r.insert i c).identities = i :: r.identities := by
  rfl

theorem length_identities
    (r : Registry ι) :
    r.identities.length = r.size := by
  simp [identities, size]

variable [DecidableEq ι] {t : ShapeTable ι} {r : Registry ι} {i j : ι} {c : CheckedShape ι}

theorem mem_identities_iff :
    i ∈ r.identities ↔ r.contains i = true := by
  simp [identities, contains, find?, List.lookup_isSome_iff]

/-- Resolving a shape adds nothing, or the checked form of a shape that was not kept. -/
theorem resolve_snd_cases
    (t : ShapeTable ι) (r : Registry ι) (i : ι) :
    (r.resolve t i).2 = r ∨
    r.find? i = none ∧ ∃ c, t.check i = .ok c ∧ (r.resolve t i).2 = r.insert i c := by
  unfold resolve
  split
  next => exact .inl rfl
  next hnone =>
    split
    next => exact .inl rfl
    next c hc => exact .inr ⟨hnone, c, hc, rfl⟩

theorem find?_resolve
    (h : r.find? i = some c) (j : ι) :
    (r.resolve t j).2.find? i = some c := by
  rcases resolve_snd_cases t r j with hsame | ⟨hnone, d, _, hinsert⟩
  · rw [hsame]
    exact h
  · have hij : i ≠ j := by
      rintro rfl
      rw [hnone] at h
      cases h
    rw [hinsert, find?_insert_of_ne r d hij]
    exact h

theorem nodup_identities_resolve
    (h : r.identities.Nodup) (i : ι) :
    (r.resolve t i).2.identities.Nodup := by
  rcases resolve_snd_cases t r i with hsame | ⟨hnone, c, _, hinsert⟩
  · rw [hsame]
    exact h
  · have hi : i ∉ r.identities := by
      simp [mem_identities_iff, contains, hnone]
    rw [hinsert, identities_insert]
    exact List.nodup_cons.mpr ⟨hi, h⟩

theorem find?_after
    (h : r.find? i = some c) (calls : List (RegistryCall ι)) :
    (r.after t calls).find? i = some c :=
  after_invariant (P := fun r' => r'.find? i = some c) (fun _ j h => find?_resolve h j) calls h

theorem nodup_identities_after
    (t : ShapeTable ι) (calls : List (RegistryCall ι)) :
    (empty.after t calls).identities.Nodup :=
  after_invariant (P := fun r => r.identities.Nodup)
    (fun _ i h => nodup_identities_resolve h i) calls List.nodup_nil

/-- Without double identities, the size counts the resolved shapes. -/
theorem size_eq_ncard
    (h : r.identities.Nodup) :
    r.size = {i | r.contains i = true}.ncard := by
  have hset : {i | r.contains i = true} = ↑r.identities.toFinset := by
    ext i
    simp [mem_identities_iff]
  rw [hset, Set.ncard_coe_finset, List.toFinset_card_of_nodup h, length_identities]

theorem Sound.contains_eq_false
    {e : ShapeError}
    (hr : r.Sound t) (he : t.check i = .error e) :
    r.contains i = false := by
  cases hfind : r.find? i with
  | none =>
      simp [contains, hfind]
  | some c =>
      have hc := hr i c hfind
      rw [he] at hc
      cases hc

end Registry

/--
After any calls on an empty registry: what is kept for a shape is the checked form
of that very shape, it is still kept after any further calls, and an unfit shape is
not kept; the size counts the shapes that are kept; and checking a shape apart from
the registry leaves the registry as it is.
-/
theorem registry_written_once
    {ι : Type} [DecidableEq ι]
    (t : ShapeTable ι) (before later : List (RegistryCall ι)) :
    let r := Registry.empty.after t before
    (∀ i c, r.find? i = some c → t.check i = .ok c ∧ c.shape = i) ∧
    (∀ i c, r.find? i = some c → (r.after t later).find? i = some c) ∧
    (∀ i e, t.check i = .error e → r.contains i = false) ∧
    r.size = {i | r.contains i = true}.ncard ∧
    ∀ i, (r.answer t (.check i)).2 = r := by
  intro r
  have hr : r.Sound t := Registry.sound_after t before
  refine ⟨fun i c hi => ?_, fun i c hi => ?_, fun i e he => ?_, ?_, fun i => ?_⟩
  · have hc := hr i c hi
    exact ⟨hc, t.shape_of_check hc⟩
  · exact Registry.find?_after hi later
  · exact hr.contains_eq_false he
  · exact Registry.size_eq_ncard (Registry.nodup_identities_after t before)
  · rfl

end ShapeQuery
