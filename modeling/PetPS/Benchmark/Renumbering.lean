import Mathlib.Data.List.Perm.Basic
import Mathlib.Data.List.Range
import Mathlib.Data.Set.Function
import PetPS.Benchmark.PetCursor
import PetPS.Lib.InsertMap
import PetPS.Lib.Split

/-!
# Renumbering the keys of a dataset

`dataset_renumbering.cc`: the tool reads a table of ids and their counts, sorts the ids and numbers
them in that order, and writes the numbers over the ids in every dataset file. The ids are to be
sorted by their counts, but the comparator looks at the count of its first argument twice and is
never true. Every permutation of the ids is then sorted, and the numbers say nothing about the
counts.

The map from ids to numbers is a bijection all the same, and that is all that the checks of the tool
and the rewriting of the files depend on.

Threads insert into the two maps in any order, and `parallel_sort` returns any sorted permutation;
both are part of a `Schedule`. The counter of the numbering loop is an `int`, whose overflow the
language leaves undefined. Here ids behind the first `2 ^ 31` get no number, and the results are
about tables of at most `2 ^ 31` ids, where there is no overflow.

## Main results

* `Schedule.Allowed.lookup_count_iff` — the counts are read as they are in the file
* `Schedule.Allowed.bijOn` — the numbering is a bijection
* `Schedule.Allowed.renumber_file` — what the tool does to a file
* `renumbering` — the files that the tool writes, and when the numbers follow the counts
* `renumbering_unordered` — numbers that do not
-/

namespace PetPS

namespace Dataset

/-! ### The tool -/

/-- `data[i]` of the count file. -/
def countWord (file : File) (i : ℕ) : UInt64 :=
  .ofNat (Bytes.decode (Bytes.load file.bytes (8 * i) 8))

/-- `key_num`. -/
def keyNum (file : File) : ℕ := file.size / 8 / 2

/-- The id and the count at `i`. -/
def countAt (file : File) (i : ℕ) : UInt64 × UInt64 :=
  (countWord file (2 * i), countWord file (2 * i + 1))

/-- The table of ids and counts. -/
def table (file : File) : List (UInt64 × UInt64) := (List.range (keyNum file)).map (countAt file)

/-- `ids`, before they are sorted. -/
def ids (file : File) : List UInt64 := (table file).map Prod.fst

/-- The indices that thread `tid` of `32` inserts into `id_count_map`. -/
def threadRange (keyNum tid : ℕ) : List ℕ := Split.part keyNum 32 tid

/-- What the threads insert. -/
def inserts (file : File) : List (UInt64 × UInt64) :=
  (List.range 32).flatMap fun tid => (threadRange (keyNum file) tid).map (countAt file)

/-- The comparator of the sort. -/
def comesBefore (idCountMap : List (UInt64 × UInt64)) (a _b : UInt64) : Bool :=
  (idCountMap.lookup a).getD 0 > (idCountMap.lookup a).getD 0

/-- What the tool leaves open. -/
structure Schedule where
  /-- The insertions into `id_count_map`. -/
  countOrder : List (UInt64 × UInt64)
  /-- `ids`, after they are sorted. -/
  sorted : List UInt64
  /-- The insertions into `renumber_map`. -/
  numberOrder : List (UInt64 × ℕ)

/-- The schedule is one of the tool. -/
structure Schedule.Allowed (s : Schedule) (file : File) : Prop where
  counts : s.countOrder.Perm (inserts file)
  perm : s.sorted.Perm (ids file)
  sorted : s.sorted.Pairwise fun a b =>
    comesBefore (InsertMap.insertAll s.countOrder) b a = false
  numbers : s.numberOrder.Perm (s.sorted.take (2 ^ 31)).zipIdx

/-- `main`, up to the rewriting of the files: `renumber_map`. -/
def renumberMap (file : File) (s : Schedule) : Except Abort (List (UInt64 × ℕ)) :=
  if file.size % 16 ≠ 0 then .error .check
  else
    let renumberMap := InsertMap.insertAll s.numberOrder
    if s.sorted.length ≠ renumberMap.length then .error .check
    else if s.sorted.length ≠ keyNum file then .error .check
    else .ok renumberMap

/-- The number of an id. -/
def number (renumberMap : List (UInt64 × ℕ)) (id : UInt64) : ℕ := (renumberMap.lookup id).getD 0

/-- An id with a larger count has no larger number. -/
def FollowsCounts (file : File) (renumberMap : List (UInt64 × ℕ)) : Prop :=
  ∀ x ∈ table file, ∀ y ∈ table file, y.2 < x.2 → number renumberMap x.1 ≤ number renumberMap y.1

/-! ### The threads -/

/-- Together they insert the table. -/
theorem inserts_eq (file : File) : inserts file = table file := by
  have hall : (List.range 32).flatMap (threadRange (keyNum file)) = List.range (keyNum file) :=
    Split.flatMap_part _ (by decide)
  rw [inserts, ← List.map_flatMap, hall, table]

theorem length_ids (file : File) : (ids file).length = keyNum file := by
  rw [ids, table, List.length_map, List.length_map, List.length_range]

/-! ### The numbering -/

namespace Schedule.Allowed

variable {s : Schedule} {file : File}

theorem length_sorted (h : s.Allowed file) : s.sorted.length = keyNum file :=
  h.perm.length_eq.trans (length_ids file)

theorem nodup (h : s.Allowed file) (hids : (ids file).Nodup) : s.sorted.Nodup :=
  h.perm.nodup_iff.mpr hids

/-- All ids are numbered. -/
theorem perm_zipIdx (h : s.Allowed file) (hn : keyNum file ≤ 2 ^ 31) :
    s.numberOrder.Perm s.sorted.zipIdx := by
  have htake : s.sorted.take (2 ^ 31) = s.sorted :=
    List.take_of_length_le (h.length_sorted.trans_le hn)
  exact htake ▸ h.numbers

/-- The checks of `main` pass. -/
theorem renumberMap_eq (h : s.Allowed file) (hsize : file.size % 16 = 0)
    (hids : (ids file).Nodup) (hn : keyNum file ≤ 2 ^ 31) :
    renumberMap file s = .ok (InsertMap.insertAll s.numberOrder) := by
  have hkeys : (s.numberOrder.map Prod.fst).Nodup := by
    rw [((h.perm_zipIdx hn).map Prod.fst).nodup_iff, List.zipIdx_map_fst]
    exact h.nodup hids
  have hlength : (InsertMap.insertAll s.numberOrder).length = s.sorted.length := by
    rw [InsertMap.length_insertAll hkeys, (h.perm_zipIdx hn).length_eq, List.length_zipIdx]
  rw [renumberMap, if_neg (not_not.mpr hsize)]
  simp only [hlength, h.length_sorted, ne_eq, not_true_eq_false, if_false]

/-- An id is found with its place in the sorted list. -/
theorem lookup_iff (h : s.Allowed file) (hids : (ids file).Nodup) (hn : keyNum file ≤ 2 ^ 31)
    {id : UInt64} {i : ℕ} :
    (InsertMap.insertAll s.numberOrder).lookup id = some i ↔ s.sorted[i]? = some id := by
  have hkeys : (s.sorted.zipIdx.map Prod.fst).Nodup := by
    rw [List.zipIdx_map_fst]
    exact h.nodup hids
  rw [InsertMap.lookup_insertAll_iff hkeys (h.perm_zipIdx hn), List.mk_mem_zipIdx_iff_getElem?]

/-- The number of an id. -/
theorem number_eq (h : s.Allowed file) (hids : (ids file).Nodup) (hn : keyNum file ≤ 2 ^ 31)
    {id : UInt64} {i : ℕ} (hi : s.sorted[i]? = some id) :
    number (InsertMap.insertAll s.numberOrder) id = i := by
  rw [number, (h.lookup_iff hids hn).mpr hi]
  rfl

/-- Every id has a place. -/
theorem exists_place (h : s.Allowed file) {id : UInt64} (hid : id ∈ ids file) :
    ∃ i < keyNum file, s.sorted[i]? = some id := by
  obtain ⟨i, hi, heq⟩ := List.mem_iff_getElem.mp (h.perm.mem_iff.mpr hid)
  exact ⟨i, h.length_sorted ▸ hi, List.getElem?_eq_some_iff.mpr ⟨hi, heq⟩⟩

/-- **The numbering is a bijection** from the ids to the numbers below `key_num`. -/
theorem bijOn (h : s.Allowed file) (hids : (ids file).Nodup) (hn : keyNum file ≤ 2 ^ 31) :
    Set.BijOn (number (InsertMap.insertAll s.numberOrder)) {id | id ∈ ids file}
      (Set.Iio (keyNum file)) := by
  refine ⟨fun id hid => ?_, fun a ha b hb hab => ?_, fun i hi => ?_⟩
  · obtain ⟨i, hlt, hi⟩ := h.exists_place hid
    rw [h.number_eq hids hn hi]
    exact hlt
  · obtain ⟨i, -, hi⟩ := h.exists_place ha
    obtain ⟨j, -, hj⟩ := h.exists_place hb
    rw [h.number_eq hids hn hi, h.number_eq hids hn hj] at hab
    subst hab
    exact Option.some.inj (hi.symm.trans hj)
  · have hlt : i < s.sorted.length := h.length_sorted ▸ hi
    have hplace : s.sorted[i]? = some s.sorted[i] := List.getElem?_eq_getElem hlt
    exact ⟨s.sorted[i], h.perm.mem_iff.mp (List.getElem_mem hlt), h.number_eq hids hn hplace⟩

/-- `id_count_map` has the counts: it is the comparator alone that ignores them. -/
theorem lookup_count_iff (h : s.Allowed file) (hids : (ids file).Nodup) {id count : UInt64} :
    (InsertMap.insertAll s.countOrder).lookup id = some count ↔ (id, count) ∈ table file :=
  InsertMap.lookup_insertAll_iff hids (inserts_eq file ▸ h.counts)

/-- The map has a number for every id. -/
theorem numbers_of_mem (h : s.Allowed file) (hids : (ids file).Nodup)
    (hn : keyNum file ≤ 2 ^ 31) {id : UInt64} (hid : id ∈ ids file) :
    Numbers (InsertMap.insertAll s.numberOrder)
      (number (InsertMap.insertAll s.numberOrder)) id := by
  obtain ⟨i, hlt, hi⟩ := h.exists_place hid
  rw [Numbers, h.number_eq hids hn hi]
  exact ⟨(h.lookup_iff hids hn).mpr hi, by omega⟩

/-- **What the tool does to a file** whose keys are ids. -/
theorem renumber_file (h : s.Allowed file) (hids : (ids file).Nodup) (hn : keyNum file ≤ 2 ^ 31)
    {f : File} {p : Parsed} (hparse : parse f = .ok p) (hkeys : ∀ key ∈ p.keys, key ∈ ids file) :
    ∃ f', renumberID (InsertMap.insertAll s.numberOrder) f = .ok (f', p.fileMeta) ∧
      parse f' = .ok (p.mapKeys (number (InsertMap.insertAll s.numberOrder))) ∧
      check (keyNum file) f' = .ok () := by
  obtain ⟨f', hrenumber, hhas⟩ := (parse_eq_ok_iff.mp hparse).renumberID fun key hkey =>
    h.numbers_of_mem hids hn (hkeys key hkey)
  refine ⟨f', hrenumber, parse_eq_ok_iff.mpr hhas, hhas.check fun key hkey => ?_⟩
  rw [Parsed.keys_mapKeys] at hkey
  obtain ⟨id, hid, rfl⟩ := List.mem_map.mp hkey
  have hlt : number _ id < keyNum file := (h.bijOn hids hn).mapsTo (hkeys id hid)
  rw [UInt64.toNat_ofNat_of_lt' (by rw [UInt64.size]; omega)]
  exact hlt

end Schedule.Allowed

/-! ### The order of the numbers -/

/-- **The comparator orders nothing.** -/
theorem comesBefore_eq_false (idCountMap : List (UInt64 × UInt64)) (a b : UInt64) :
    comesBefore idCountMap a b = false :=
  decide_eq_false (UInt64.lt_irrefl _)

/-- Every permutation of the ids is sorted. -/
theorem allowed_of_perm {file : File} {sorted : List UInt64} (h : sorted.Perm (ids file)) :
    (⟨inserts file, sorted, (sorted.take (2 ^ 31)).zipIdx⟩ : Schedule).Allowed file :=
  ⟨List.Perm.refl _, h, List.pairwise_of_forall fun _ _ => comesBefore_eq_false _ _ _,
    List.Perm.refl _⟩

/-- Two ids can be the first of the sorted list. -/
theorem exists_perm_of_ne {l : List UInt64} {a b : UInt64} (ha : a ∈ l) (hb : b ∈ l)
    (hne : a ≠ b) : ∃ rest, (a :: b :: rest).Perm l := by
  have hb' : b ∈ l.erase a := (List.mem_erase_of_ne hne.symm).mpr hb
  exact ⟨(l.erase a).erase b,
    ((List.perm_cons_erase hb').symm.cons a).trans (List.perm_cons_erase ha).symm⟩

/-- **Renumbering.** For every table with different ids, and as many as an `int` can count, and
every schedule of the tool: the numbering is a bijection onto the numbers below `key_num`, and a
file whose keys are ids is rewritten so that it has the same requests and dimensions with the
numbers of the keys, and passes the check. The numbers follow the counts in every schedule exactly
when all counts are the same. -/
theorem renumbering {file : File} (hsize : file.size % 16 = 0) (hids : (ids file).Nodup)
    (hn : keyNum file ≤ 2 ^ 31) :
    (∀ s : Schedule, s.Allowed file → ∃ m, renumberMap file s = .ok m ∧
      Set.BijOn (number m) {id | id ∈ ids file} (Set.Iio (keyNum file)) ∧
      ∀ f p, parse f = .ok p → (∀ key ∈ p.keys, key ∈ ids file) →
        ∃ f', renumberID m f = .ok (f', p.fileMeta) ∧ parse f' = .ok (p.mapKeys (number m)) ∧
          check (keyNum file) f' = .ok ()) ∧
    ((∀ s m, s.Allowed file → renumberMap file s = .ok m → FollowsCounts file m) ↔
      ∀ x ∈ table file, ∀ y ∈ table file, x.2 = y.2) := by
  refine ⟨fun s hs => ?_, fun hfollows x hx y hy => ?_, fun hsame s m _ _ x hx y hy hlt => ?_⟩
  · exact ⟨_, hs.renumberMap_eq hsize hids hn, hs.bijOn hids hn,
      fun f p hparse hkeys => hs.renumber_file hids hn hparse hkeys⟩
  · -- a schedule that gives the smaller count the smaller number
    have hle : ∀ x ∈ table file, ∀ y ∈ table file, ¬ y.2 < x.2 := by
      intro x hx y hy hlt
      have hid : ∀ z ∈ table file, z.1 ∈ ids file := fun z hz => List.mem_map_of_mem hz
      have hne : y.1 ≠ x.1 := fun heq => by
        rw [List.inj_on_of_nodup_map hids hy hx heq] at hlt
        exact UInt64.lt_irrefl _ hlt
      obtain ⟨rest, hperm⟩ := exists_perm_of_ne (hid y hy) (hid x hx) hne
      have hs := allowed_of_perm hperm
      have horder := hfollows _ _ hs (hs.renumberMap_eq hsize hids hn) x hx y hy hlt
      rw [hs.number_eq hids hn (i := 1) rfl, hs.number_eq hids hn (i := 0) rfl] at horder
      exact absurd horder (by decide)
    exact UInt64.le_antisymm (UInt64.not_lt.mp (hle x hx y hy)) (UInt64.not_lt.mp (hle y hy x hx))
  · rw [hsame x hx y hy] at hlt
    exact absurd hlt (UInt64.lt_irrefl _)

/-- The table of the ids `1` and `2` with counts `1` and `5`. -/
def twoIds : File := ⟨fun x => if x = 0 then 1 else if x = 8 then 1 else if x = 16 then 2 else
  if x = 24 then 5 else 0, 32⟩

/-- A file with one request for the id `2`, of dimension `8`. -/
def oneRequest : File :=
  ⟨fun x => if x = 0 then 1 else if x = 4 then 1 else if x = 8 then 2 else if x = 16 then 8 else 0,
    20⟩

/-- The file of one request, renumbered when the ids are sorted as in the table. -/
theorem renumbering_one_request : ∃ s m f', s.Allowed twoIds ∧ renumberMap twoIds s = .ok m ∧
    renumberID m oneRequest = .ok (f', ⟨1, 1⟩) ∧ parse f' = .ok ⟨1, [⟨1, [(1, 8)]⟩]⟩ ∧
    check 2 f' = .ok () := by
  have hs : (⟨inserts twoIds, ids twoIds, ((ids twoIds).take (2 ^ 31)).zipIdx⟩ :
      Schedule).Allowed twoIds := allowed_of_perm (List.Perm.refl _)
  have hsize : twoIds.size % 16 = 0 := by decide
  obtain ⟨m, hm, -, hfile⟩ := (renumbering hsize (by decide) (by decide)).1 _ hs
  have hparse : parse oneRequest = .ok ⟨1, [⟨1, [(2, 8)]⟩]⟩ := by rfl
  have hkeys : ∀ key ∈ (⟨1, [⟨1, [(2, 8)]⟩]⟩ : Parsed).keys, key ∈ ids twoIds := by
    intro key hkey
    obtain rfl : key = 2 := List.mem_singleton.mp hkey
    decide
  obtain ⟨f', hrenumber, hparse', hcheck⟩ := hfile _ _ hparse hkeys
  have hnumber : number m 2 = 1 := by
    rw [hs.renumberMap_eq hsize (by decide) (by decide)] at hm
    obtain rfl := Except.ok.inj hm
    exact hs.number_eq (by decide) (by decide) rfl
  refine ⟨_, m, f', hs, hm, hrenumber, ?_, hcheck⟩
  rw [hparse', Parsed.mapKeys]
  simp only [List.map_cons, List.map_nil, Request.mapKeys, hnumber]
  rfl

/-- **Numbers against the counts**: the id with the count `1` gets the number `0`, the id with the
count `5` the number `1`. -/
theorem renumbering_unordered : ∃ s m, s.Allowed twoIds ∧ renumberMap twoIds s = .ok m ∧
    table twoIds = [(1, 1), (2, 5)] ∧ number m 1 = 0 ∧ number m 2 = 1 ∧
    ¬ FollowsCounts twoIds m := by
  have hs : (⟨inserts twoIds, ids twoIds, ((ids twoIds).take (2 ^ 31)).zipIdx⟩ :
      Schedule).Allowed twoIds := allowed_of_perm (List.Perm.refl _)
  have htable : table twoIds = [(1, 1), (2, 5)] := by decide
  have hone : number (InsertMap.insertAll ((ids twoIds).take (2 ^ 31)).zipIdx) 1 = 0 :=
    hs.number_eq (by decide) (by decide) rfl
  have htwo : number (InsertMap.insertAll ((ids twoIds).take (2 ^ 31)).zipIdx) 2 = 1 :=
    hs.number_eq (by decide) (by decide) rfl
  refine ⟨_, _, hs, hs.renumberMap_eq (by decide) (by decide) (by decide), htable, hone, htwo,
    fun hfollows => ?_⟩
  have hle := hfollows (2, 5) (by rw [htable]; decide) (1, 1) (by rw [htable]; decide) (by decide)
  rw [hone, htwo] at hle
  exact absurd hle (by decide)

end Dataset

end PetPS
