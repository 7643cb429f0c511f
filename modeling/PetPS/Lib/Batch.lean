import Mathlib.Data.List.Forall2
import Mathlib.Data.List.Nodup
import Mathlib.Data.List.Perm.Basic
import Mathlib.Data.List.Range

/-!
# Batches

A call that can fail, made for every element of a list. `mapM` makes the calls in the order of the
list. `each` makes them for a list of indices, in that order, and writes each result back in the
place of its element. It stands for workers that share a list and each take some of its indices: an
interleaving of their calls is some order of the indices.

## Main results

* `mapM_eq_ok_iff` — a batch succeeds when every call does
* `each_eq_ok` — the order of the indices does not matter
-/

namespace Batch

variable {α β ε : Type}

/-- **A batch succeeds when every call does.** -/
theorem mapM_eq_ok_iff {f : α → Except ε β} {xs : List α} {ys : List β} :
    xs.mapM f = .ok ys ↔ List.Forall₂ (fun x y => f x = .ok y) xs ys := by
  induction xs generalizing ys with
  | nil =>
    rw [List.mapM_nil, List.forall₂_nil_left_iff]
    exact ⟨fun h => (Except.ok.inj h).symm, fun h => h ▸ rfl⟩
  | cons x xs ih =>
    rw [List.mapM_cons, List.forall₂_cons_left_iff]
    constructor
    · intro h
      rcases hx : f x with e | y
      · rw [hx] at h
        cases h
      rcases hxs : xs.mapM f with e | ys'
      · rw [hx, hxs] at h
        cases h
      · rw [hx, hxs] at h
        cases h
        exact ⟨y, ys', rfl, ih.mp hxs, rfl⟩
    · rintro ⟨y, ys', hx, hxs, rfl⟩
      rw [hx, ih.mpr hxs]
      rfl

theorem mapM_eq_ok_map {f : α → Except ε β} {g : α → β} {xs : List α}
    (h : ∀ x ∈ xs, f x = .ok (g x)) : xs.mapM f = .ok (xs.map g) := by
  rw [mapM_eq_ok_iff, List.forall₂_map_right_iff, List.forall₂_same]
  exact h

theorem exists_of_mapM {f : α → Except ε β} {xs : List α} {ys : List β}
    (h : xs.mapM f = .ok ys) {x : α} (hx : x ∈ xs) : ∃ y ∈ ys, f x = .ok y := by
  induction mapM_eq_ok_iff.mp h with
  | nil => cases hx
  | cons hhead htail ih =>
    rcases List.mem_cons.mp hx with rfl | hx
    · exact ⟨_, List.mem_cons_self, hhead⟩
    · obtain ⟨y, hy, hf⟩ := ih (mapM_eq_ok_iff.mpr htail) hx
      exact ⟨y, List.mem_cons_of_mem _ hy, hf⟩

theorem exists_mapM {f : α → Except ε β} {xs : List α} (h : ∀ x ∈ xs, ∃ y, f x = .ok y) :
    ∃ ys, xs.mapM f = .ok ys := by
  induction xs with
  | nil => exact ⟨[], rfl⟩
  | cons x xs ih =>
    obtain ⟨y, hy⟩ := h x List.mem_cons_self
    obtain ⟨ys, hys⟩ := ih fun z hz => h z (List.mem_cons_of_mem x hz)
    exact ⟨y :: ys, mapM_eq_ok_iff.mpr (.cons hy (mapM_eq_ok_iff.mp hys))⟩

/-- The calls for the elements at `js`, each of which replaces its element and reports something. An
index outside the list is an error. -/
def each (outside : ε) (body : α → Except ε (α × β)) :
    List ℕ → List α → Except ε (List α × List β)
  | [], xs => .ok (xs, [])
  | j :: js, xs =>
    match xs[j]? with
    | none => .error outside
    | some x =>
      match body x with
      | .error e => .error e
      | .ok (x', b) =>
        match each outside body js (xs.set j x') with
        | .error e => .error e
        | .ok (xs', bs) => .ok (xs', b :: bs)

/-- The calls for some of the elements. -/
theorem each_eq {outside : ε} {body : α → Except ε (α × β)} {f : α → α} {g : α → β}
    {js : List ℕ} {xs : List α} (hjs : js.Nodup) (hlt : ∀ j ∈ js, j < xs.length)
    (hbody : ∀ j ∈ js, ∀ x, xs[j]? = some x → body x = .ok (f x, g x)) :
    each outside body js xs = .ok (xs.mapIdx fun i x => if i ∈ js then f x else x,
      js.filterMap fun j => xs[j]?.map g) := by
  induction js generalizing xs with
  | nil =>
    have hid : (xs.mapIdx fun i x => if i ∈ ([] : List ℕ) then f x else x) = xs := by
      refine List.ext_getElem List.length_mapIdx fun i _ _ => ?_
      rw [List.getElem_mapIdx, if_neg List.not_mem_nil]
    rw [hid]
    rfl
  | cons j js ih =>
    obtain ⟨hj, hjs⟩ := List.nodup_cons.mp hjs
    have hj' : j < xs.length := hlt j List.mem_cons_self
    have hget : xs[j]? = some xs[j] := List.getElem?_eq_getElem hj'
    -- the other elements are as they were
    have hother : ∀ i ∈ js, (xs.set j (f xs[j]))[i]? = xs[i]? := fun i hi =>
      List.getElem?_set_ne fun heq : j = i => hj (heq ▸ hi)
    have hlt' : ∀ i ∈ js, i < (xs.set j (f xs[j])).length := fun i hi => by
      rw [List.length_set]
      exact hlt i (List.mem_cons_of_mem j hi)
    have hrest := ih hjs hlt' fun i hi x hx =>
      hbody i (List.mem_cons_of_mem j hi) x (hother i hi ▸ hx)
    have hxs : ((xs.set j (f xs[j])).mapIdx fun i x => if i ∈ js then f x else x) =
        xs.mapIdx fun i x => if i ∈ j :: js then f x else x := by
      refine List.ext_getElem (by simp) fun i hi hi' => ?_
      simp only [List.getElem_mapIdx, List.getElem_set, List.mem_cons]
      rcases eq_or_ne j i with rfl | hne
      · simp [hj]
      · simp [hne, hne.symm]
    have hbs : (js.filterMap fun i => (xs.set j (f xs[j]))[i]?.map g) =
        js.filterMap fun i => xs[i]?.map g :=
      List.filterMap_congr fun i hi => by rw [hother i hi]
    rw [each, hget]
    simp only [hbody j List.mem_cons_self _ hget, hrest, hxs, hbs]
    rw [List.filterMap_cons, hget]
    rfl

theorem filterMap_range_getElem? (xs : List α) :
    (List.range xs.length).filterMap (fun j => xs[j]?) = xs := by
  induction xs using List.reverseRecOn with
  | nil => rfl
  | append_singleton xs x ih =>
    have hfront : (List.range xs.length).filterMap (fun j => (xs ++ [x])[j]?) = xs :=
      (List.filterMap_congr fun j hj =>
        List.getElem?_append_left (List.mem_range.mp hj)).trans ih
    rw [List.length_append, List.length_singleton, List.range_succ, List.filterMap_append, hfront]
    simp

/-- **The order of the indices does not matter**, when each is taken once: all elements are
replaced, and what is reported is what the calls report, in some order. -/
theorem each_eq_ok {outside : ε} {body : α → Except ε (α × β)} {f : α → α} {g : α → β}
    {js : List ℕ} {xs : List α} (hjs : js.Perm (List.range xs.length))
    (hbody : ∀ x ∈ xs, body x = .ok (f x, g x)) :
    ∃ bs, each outside body js xs = .ok (xs.map f, bs) ∧ bs.Perm (xs.map g) := by
  refine ⟨js.filterMap fun j => xs[j]?.map g, ?_, ?_⟩
  · rw [each_eq (hjs.nodup_iff.mpr List.nodup_range)
      (fun j hj => List.mem_range.mp (hjs.mem_iff.mp hj))
      fun j _ x hx => hbody x (List.mem_of_getElem? hx)]
    refine congrArg (fun l => Except.ok (l, _)) (List.ext_getElem (by simp) fun i hi hi' => ?_)
    have hmem : i ∈ js := hjs.mem_iff.mpr (List.mem_range.mpr (by simpa using hi))
    rw [List.getElem_mapIdx, if_pos hmem, List.getElem_map]
  · have hall : (List.range xs.length).filterMap (fun j => xs[j]?.map g) = xs.map g := by
      rw [show (fun j => xs[j]?.map g) = fun j => (xs[j]?).map g from rfl, ← List.map_filterMap,
        filterMap_range_getElem?]
    exact hall ▸ hjs.filterMap _

end Batch
