import Mathlib.Data.List.Dedup
import Mathlib.Data.UInt
import PetPS.Benchmark.Renumbering
import PetPS.Lib.Batch
import PetPS.Lib.CountMap
import PetPS.Lib.Split

/-!
# Counting the ids of a dataset

`dataset_wordcount.cc`: the tool counts how often each id occurs in the dataset files and writes the
table that `dataset_renumbering.cc` reads. Each thread takes a part of the files, counts every file
by itself and merges the counters of its files; in the end the counters of the threads are merged
into the first of them, and the pairs of that one are written to the table.

A counter is a list of pairs with different ids. An `unordered_map` is iterated in an order of its
own, which is up to an `Iteration`. The threads share nothing before they are joined, and so they
run one after another here. The output file is new, and has the size that it is grown to.

The two tools are then run one after the other: the table is the one that the second tool wants,
whatever the number of threads and the orders, and the numbers that replace the ids are a bijection.

## Main results

* `Totals` — what a counter has counted, for a file, a thread and all threads
* `wordCount_totals` — the table has each id once, with its number of occurrences
* `renumber_wordCount` — both tools
-/

namespace PetPS

namespace Dataset

/-! ### The tool -/

/-- `std::unordered_map<uint64_t, uint64_t>`: an id and its count. -/
abbrev Counter : Type := List (UInt64 × UInt64)

/-- `CountIDOccurrence`. -/
def countIDOccurrence (f : File) : Except Abort Counter :=
  (parse f).map fun p => p.keys.foldl (fun counter key => CountMap.add counter (key, 1)) []

/-- `MergeCounter`, for the pairs of `b` in the order in which they are iterated. -/
def mergeCounter (a b : Counter) : Counter := CountMap.merge a b

/-- The orders in which the maps are iterated: that of a file, that of a thread and the last. -/
structure Iteration where
  file : ℕ → Counter → Counter
  thread : ℕ → Counter → Counter
  output : Counter → Counter
  file_perm : ∀ j c, (file j c).Perm c
  thread_perm : ∀ i c, (thread i c).Perm c
  output_perm : ∀ c, (output c).Perm c

/-- The loop of a thread over its files. -/
def countFiles (it : Iteration) (files : List File) : Counter → List ℕ → Except Abort Counter
  | counter, [] => .ok counter
  | counter, j :: js =>
    match files[j]? with
    | none => .error .fault
    | some f =>
      match countIDOccurrence f with
      | .error e => .error e
      | .ok fileCounter => countFiles it files (mergeCounter counter (it.file j fileCounter)) js

/-- The loop that merges the counters of the threads `i`, `i + 1`, … -/
def mergeThreads (it : Iteration) : ℕ → Counter → List Counter → Counter
  | _, counter, [] => counter
  | i, counter, c :: cs => mergeThreads it (i + 1) (mergeCounter counter (it.thread i c)) cs

/-- The table, as it is written. -/
def writeCounter (c : Counter) : File :=
  ⟨Bytes.store (fun _ => 0) 0
    (c.flatMap fun p => Bytes.encode64 p.1.toNat ++ Bytes.encode64 p.2.toNat), 16 * c.length⟩

/-- `main` of the counting tool. No thread is a division by zero. -/
def wordCount (it : Iteration) (threadCount : ℕ) (files : List File) : Except Abort File :=
  if files.length = 0 then .error .check
  else
    match (List.range threadCount).mapM
      fun i => countFiles it files [] (Split.part files.length threadCount i) with
    | .error e => .error e
    | .ok [] => .error .fault
    | .ok (c :: cs) => .ok (writeCounter (it.output (mergeThreads it 1 c cs)))

/-! ### What a counter has counted -/

/-- Each occurrence of an id counts one. -/
def ones (ids : List UInt64) : Counter := ids.map fun id => (id, 1)

/-- The counter has counted these ids. -/
structure Totals (c : Counter) (ids : List UInt64) : Prop where
  nodup : (CountMap.keys c).Nodup
  same : CountMap.Same c (ones ids)

theorem keys_ones (ids : List UInt64) : CountMap.keys (ones ids) = ids := by
  rw [CountMap.keys, ones, List.map_map]
  exact List.map_id ids

theorem ones_append (ids ids' : List UInt64) : ones (ids ++ ids') = ones ids ++ ones ids' :=
  List.map_append

theorem sumOf_ones (ids : List UInt64) (id : UInt64) :
    CountMap.sumOf (ones ids) id = .ofNat (ids.count id) := by
  induction ids with
  | nil => rfl
  | cons x ids ih =>
    rw [show ones (x :: ids) = (x, 1) :: ones ids from rfl, CountMap.sumOf_cons, ih,
      List.count_cons, UInt64.ofNat_add, add_comm]
    by_cases hx : x = id
    · simp [hx]
    · simp [hx]

/-- The pairs of a counter. -/
theorem Totals.mem_iff {c : Counter} {ids : List UInt64} (h : Totals c ids) {id count : UInt64} :
    (id, count) ∈ c ↔ id ∈ ids ∧ count = .ofNat (ids.count id) := by
  rw [h.same.mem_iff h.nodup, keys_ones, sumOf_ones]

theorem totals_nil : Totals [] [] := ⟨List.nodup_nil, CountMap.Same.refl []⟩

/-- **Merging** two counters, in any order. -/
theorem Totals.merge {a b b' : Counter} {ids ids' : List UInt64} (ha : Totals a ids)
    (hb : CountMap.Same b (ones ids')) (hperm : b'.Perm b) :
    Totals (mergeCounter a b') (ids ++ ids') := by
  refine ⟨CountMap.nodup_merge ha.nodup, ?_⟩
  rw [ones_append]
  exact (CountMap.same_merge a b').trans
    (ha.same.append ((CountMap.Same.of_perm hperm).trans hb))

theorem Totals.perm {c c' : Counter} {ids : List UInt64} (h : Totals c ids) (hperm : c'.Perm c) :
    Totals c' ids :=
  ⟨(hperm.map Prod.fst).nodup_iff.mpr h.nodup, (CountMap.Same.of_perm hperm).trans h.same⟩

/-- The counter of a file. -/
theorem countIDOccurrence_eq {f : File} {p : Parsed} (h : parse f = .ok p) :
    ∃ c, countIDOccurrence f = .ok c ∧ Totals c p.keys := by
  have hfold : p.keys.foldl (fun counter key => CountMap.add counter (key, 1)) [] =
      mergeCounter [] (ones p.keys) := by
    rw [mergeCounter, CountMap.merge, ones, List.foldl_map]
  refine ⟨_, ?_, totals_nil.merge (CountMap.Same.refl _) (List.Perm.refl (ones p.keys))⟩
  rw [countIDOccurrence, h, ← hfold]
  rfl

/-! ### The threads -/

section Threads

variable {it : Iteration} {files : List File} {ps : List Parsed}

/-- The ids of the file at `j`. -/
def keysAt (ps : List Parsed) (j : ℕ) : List UInt64 := (ps[j]?.map Parsed.keys).getD []

/-- All ids. -/
def allKeys (ps : List Parsed) : List UInt64 := ps.flatMap Parsed.keys

theorem flatMap_keysAt (ps : List Parsed) : (List.range ps.length).flatMap (keysAt ps) =
    allKeys ps := by
  have hsome : ∀ j ∈ List.range ps.length, keysAt ps j = (ps[j]?.toList).flatMap Parsed.keys := by
    intro j _
    rw [keysAt]
    cases ps[j]? with
    | none => rfl
    | some p => simp
  rw [List.flatMap_congr hsome, ← List.flatMap_assoc, allKeys]
  refine congrArg (List.flatMap Parsed.keys) ?_
  rw [← List.filterMap_eq_flatMap_toList]
  exact Batch.filterMap_range_getElem? ps

/-- A thread counts the ids of its files. -/
theorem countFiles_eq (hps : files.mapM parse = .ok ps) {js : List ℕ}
    (hjs : ∀ j ∈ js, j < files.length) {c : Counter} {ids : List UInt64} (hc : Totals c ids) :
    ∃ c', countFiles it files c js = .ok c' ∧ Totals c' (ids ++ js.flatMap (keysAt ps)) := by
  induction js generalizing c ids with
  | nil =>
    refine ⟨c, rfl, ?_⟩
    rw [List.flatMap_nil, List.append_nil]
    exact hc
  | cons j js ih =>
    have hj := hjs j List.mem_cons_self
    obtain ⟨p, hp, hparse⟩ : ∃ p, ps[j]? = some p ∧ parse files[j] = .ok p := by
      have hall := Batch.mapM_eq_ok_iff.mp hps
      have hj' : j < ps.length := hall.length_eq ▸ hj
      exact ⟨ps[j], List.getElem?_eq_getElem hj', hall.get hj hj'⟩
    obtain ⟨fc, hfc, htotals⟩ := countIDOccurrence_eq hparse
    obtain ⟨c', hc', htotals'⟩ := ih (fun i hi => hjs i (List.mem_cons_of_mem j hi))
      (hc.merge htotals.same (it.file_perm j fc))
    refine ⟨c', ?_, ?_⟩
    · rw [countFiles, List.getElem?_eq_getElem hj]
      simp only [hfc, hc']
    · have hkeys : keysAt ps j = p.keys := by rw [keysAt, hp]; rfl
      rw [List.flatMap_cons, hkeys, ← List.append_assoc]
      exact htotals'

/-- A thread that ends has parsed its files. -/
theorem parse_of_countFiles {c c' : Counter} {js : List ℕ}
    (h : countFiles it files c js = .ok c') {j : ℕ} (hj : j ∈ js) :
    ∃ f p, files[j]? = some f ∧ parse f = .ok p := by
  induction js generalizing c with
  | nil => cases hj
  | cons i js ih =>
    rw [countFiles] at h
    rcases hf : files[i]? with _ | f
    · rw [hf] at h
      cases h
    rcases hp : parse f with e | p
    · simp only [hf, countIDOccurrence, hp] at h
      cases h
    rcases List.mem_cons.mp hj with rfl | hj
    · exact ⟨f, p, hf, hp⟩
    · simp only [hf, countIDOccurrence, hp] at h
      exact ih h hj

/-- The counters of the threads, merged. -/
theorem Totals.mergeThreads (it : Iteration) {c : ℕ → Counter} {ids : ℕ → List UInt64}
    (h : ∀ i, Totals (c i) (ids i)) {first : Counter} {firstIds : List UInt64}
    (hfirst : Totals first firstIds) (threads : List ℕ) (i : ℕ) :
    Totals (mergeThreads it i first (threads.map c)) (firstIds ++ threads.flatMap ids) := by
  induction threads generalizing first firstIds i with
  | nil =>
    rw [List.flatMap_nil, List.append_nil]
    exact hfirst
  | cons j threads ih =>
    rw [List.flatMap_cons, ← List.append_assoc]
    exact ih (hfirst.merge (h j).same (it.thread_perm i (c j))) (i + 1)

end Threads

/-! ### The table -/

theorem keyNum_writeCounter (c : Counter) : keyNum (writeCounter c) = c.length := by
  rw [keyNum, show (writeCounter c).size = 16 * c.length from rfl]
  omega

theorem ofNat_decode_encode (x : UInt64) :
    UInt64.ofNat (Bytes.decode (Bytes.encode64 x.toNat)) = x := by
  rw [Bytes.decode_encode64 x.toNat_lt, UInt64.ofNat_toNat]

/-- **The table that is read is the one that was written.** -/
theorem table_writeCounter (counter : Counter) : table (writeCounter counter) = counter := by
  refine List.ext_getElem (by simp [table, keyNum_writeCounter]) fun i hi hi' => ?_
  have hlen : ∀ p ∈ counter, (Bytes.encode64 p.1.toNat ++ Bytes.encode64 p.2.toNat).length = 16 :=
    fun _ _ => rfl
  have hall := (Bytes.length_flatMap_eq_iff fun p hp => (hlen p hp).le).mpr hlen
  have hpair : Bytes.load (writeCounter counter).bytes (i * 16) (8 + 8) =
      Bytes.encode64 counter[i].1.toNat ++ Bytes.encode64 counter[i].2.toNat := by
    rw [← Bytes.slice_flatMap hlen i hi', ← Nat.zero_add (i * 16),
      ← Bytes.load_slice (n := counter.length * 16) (by omega), Nat.zero_add, ← hall]
    exact congrArg (fun bs => (bs.drop (i * 16)).take 16) Bytes.load_store_self
  rw [Bytes.load_add] at hpair
  obtain ⟨hid, hcount⟩ := List.append_inj hpair (by rw [Bytes.length_load]; rfl)
  have hword : ∀ j, countWord (writeCounter counter) j =
      .ofNat (Bytes.decode (Bytes.load (writeCounter counter).bytes (8 * j) 8)) := fun _ => rfl
  have hfst : countWord (writeCounter counter) (2 * i) = counter[i].1 := by
    rw [hword, show 8 * (2 * i) = i * 16 by omega, hid, ofNat_decode_encode]
  have hsnd : countWord (writeCounter counter) (2 * i + 1) = counter[i].2 := by
    rw [hword, show 8 * (2 * i + 1) = i * 16 + 8 by omega, hcount, ofNat_decode_encode]
  simp only [table, List.getElem_map, List.getElem_range, countAt, hfst, hsnd]

/-! ### The counting tool -/

section Tool

variable {it : Iteration} {threadCount : ℕ} {files : List File} {ps : List Parsed}

/-- The counting tool on files that can be parsed. -/
theorem wordCount_eq (it : Iteration) (ht : 0 < threadCount) (hfiles : files ≠ [])
    (hps : files.mapM parse = .ok ps) :
    ∃ c, wordCount it threadCount files = .ok (writeCounter c) ∧ Totals c (allKeys ps) := by
  have hlength : files.length = ps.length := (Batch.mapM_eq_ok_iff.mp hps).length_eq
  have hthread : ∀ i, ∃ c, countFiles it files [] (Split.part files.length threadCount i) = .ok c ∧
      Totals c ((Split.part files.length threadCount i).flatMap (keysAt ps)) := fun i =>
    countFiles_eq hps (fun _ hj => Split.mem_part hj) totals_nil
  choose c hc htotals using hthread
  have hcounters := Batch.mapM_eq_ok_map fun i (_ : i ∈ List.range threadCount) => hc i
  -- all parts together are all files
  have hkeys : (List.range threadCount).flatMap
      (fun i => (Split.part files.length threadCount i).flatMap (keysAt ps)) = allKeys ps := by
    rw [← List.flatMap_assoc, Split.flatMap_part _ ht, hlength, flatMap_keysAt]
  obtain ⟨k, hk⟩ : ∃ k, threadCount = k + 1 := ⟨threadCount - 1, by omega⟩
  have hrange : List.range threadCount = 0 :: (List.range k).map Nat.succ := by
    rw [hk, List.range_succ_eq_map]
  have hmerged := Totals.mergeThreads it htotals (htotals 0) ((List.range k).map Nat.succ) 1
  rw [hrange, List.flatMap_cons] at hkeys
  rw [hkeys] at hmerged
  rw [hrange, List.map_cons] at hcounters
  refine ⟨_, ?_, hmerged.perm (it.output_perm _)⟩
  rw [wordCount, if_neg (by rw [List.length_eq_zero_iff]; exact hfiles), hrange, hcounters]

/-- The counting tool ends only when every file can be parsed. -/
theorem parse_of_wordCount {out : File} (ht : 0 < threadCount)
    (h : wordCount it threadCount files = .ok out) : ∃ ps, files.mapM parse = .ok ps := by
  rw [wordCount] at h
  split_ifs at h with hne
  rcases hcs : (List.range threadCount).mapM
      (fun i => countFiles it files [] (Split.part files.length threadCount i)) with e | cs
  · rw [hcs] at h
    cases h
  refine Batch.exists_mapM fun f hf => ?_
  obtain ⟨j, hj, rfl⟩ := List.mem_iff_getElem.mp hf
  -- the file is one of some thread
  have hmem : j ∈ (List.range threadCount).flatMap (Split.part files.length threadCount) := by
    rw [Split.flatMap_part _ ht]
    exact List.mem_range.mpr hj
  obtain ⟨i, hi, hji⟩ := List.mem_flatMap.mp hmem
  obtain ⟨c, -, hc⟩ := Batch.exists_of_mapM hcs hi
  obtain ⟨f, p, hf', hp⟩ := parse_of_countFiles hc hji
  rw [List.getElem?_eq_getElem hj] at hf'
  exact ⟨p, Option.some.inj hf' ▸ hp⟩

/-- The ids of the table. -/
theorem Totals.ids_nodup {c : Counter} {keys : List UInt64} (h : Totals c keys) :
    (ids (writeCounter c)).Nodup := by
  rw [ids, table_writeCounter]
  exact h.nodup

theorem Totals.mem_ids {c : Counter} {keys : List UInt64} (h : Totals c keys) {id : UInt64} :
    id ∈ ids (writeCounter c) ↔ id ∈ keys := by
  rw [ids, table_writeCounter]
  exact (h.same.mem id).trans (by rw [keys_ones])

/-- As many as different ids occur. -/
theorem Totals.keyNum {c : Counter} {keys : List UInt64} (h : Totals c keys) :
    keyNum (writeCounter c) = keys.dedup.length := by
  have hperm : (ids (writeCounter c)).Perm keys.dedup :=
    (List.perm_ext_iff_of_nodup h.ids_nodup keys.nodup_dedup).mpr fun id =>
      h.mem_ids.trans List.mem_dedup.symm
  rw [← length_ids, hperm.length_eq]

end Tool

/-- **The table of the counting tool**, for any number of threads and any order in which the maps
are iterated. The tool ends when every file can be parsed, and only then; each id that occurs is in
the table once, with the number of its occurrences in all files as far as `64` bits hold it. -/
theorem wordCount_totals (it : Iteration) {threadCount : ℕ} (ht : 0 < threadCount)
    {files : List File} (hfiles : files ≠ []) :
    ((∃ out, wordCount it threadCount files = .ok out) ↔ ∃ ps, files.mapM parse = .ok ps) ∧
    ∀ out ps, wordCount it threadCount files = .ok out → files.mapM parse = .ok ps →
      out.size % 16 = 0 ∧ (ids out).Nodup ∧ ∀ id count, (id, count) ∈ table out ↔
        id ∈ allKeys ps ∧ count = .ofNat ((allKeys ps).count id) := by
  refine ⟨⟨fun ⟨out, hout⟩ => parse_of_wordCount ht hout, fun ⟨ps, hps⟩ => ?_⟩, ?_⟩
  · obtain ⟨c, hc, -⟩ := wordCount_eq it ht hfiles hps
    exact ⟨_, hc⟩
  · intro out ps hout hps
    obtain ⟨c, hc, htotals⟩ := wordCount_eq it ht hfiles hps
    obtain rfl := Except.ok.inj (hc.symm.trans hout)
    refine ⟨Nat.mul_mod_right 16 c.length, htotals.ids_nodup, fun id count => ?_⟩
    rw [table_writeCounter]
    exact htotals.mem_iff

/-- Maps that are iterated in the order of their insertions. -/
def Iteration.plain : Iteration :=
  ⟨fun _ c => c, fun _ c => c, fun c => c, fun _ _ => .refl _, fun _ _ => .refl _, fun _ => .refl _⟩

theorem mapM_parse_oneRequest : [oneRequest, oneRequest].mapM parse =
    .ok [⟨1, [⟨1, [(2, 8)]⟩]⟩, ⟨1, [⟨1, [(2, 8)]⟩]⟩] := rfl

/-- Two files with a request for the id `2`, counted by three threads. -/
theorem wordCount_two_files : ∃ out, wordCount .plain 3 [oneRequest, oneRequest] = .ok out ∧
    (2, 2) ∈ table out := by
  have htool := wordCount_totals .plain (show 0 < 3 by decide)
    (List.cons_ne_nil oneRequest [oneRequest])
  obtain ⟨out, hout⟩ := htool.1.mpr ⟨_, mapM_parse_oneRequest⟩
  refine ⟨out, hout, ((htool.2 out _ hout mapM_parse_oneRequest).2.2 2 2).mpr ⟨?_, ?_⟩⟩
  · exact List.mem_cons_self
  · rfl

/-! ### Both tools -/

/-- The threads come to their files in this order. -/
def Interleaved (threadCount n : ℕ) (order : List ℕ) : Prop :=
  order.Perm ((List.range threadCount).flatMap (Split.part n threadCount))

/-- The threads that renumber the files, and the lines of the meta file. -/
def renumberFiles (renumberMap : List (UInt64 × ℕ)) (order : List ℕ) (files : List File) :
    Except Abort (List File × List FileMeta) :=
  Batch.each .fault (renumberID renumberMap) order files

/-- The threads that check the files. -/
def checkFiles (maxKey : ℕ) (order : List ℕ) (files : List File) :
    Except Abort (List File × List Unit) :=
  Batch.each .fault (fun f => (check maxKey f).map fun r => (f, r)) order files

/-- `main` of the renumbering tool: the files, and the lines of the meta file. -/
def renumberMain (countFile : File) (s : Schedule) (order checkOrder : List ℕ)
    (files : List File) : Except Abort (List File × List FileMeta) :=
  if files.length = 0 then .error .check
  else
    match renumberMap countFile s with
    | .error e => .error e
    | .ok m =>
      match renumberFiles m order files with
      | .error e => .error e
      | .ok (files', metas) =>
        match checkFiles (keyNum countFile) checkOrder files' with
        | .error e => .error e
        | .ok _ => .ok (files', metas)

theorem allKeys_map_mapKeys (number : UInt64 → ℕ) (ps : List Parsed) :
    allKeys (ps.map (Parsed.mapKeys number)) = (allKeys ps).map fun id => .ofNat (number id) := by
  simp only [allKeys, List.flatMap_map, List.map_flatMap, Parsed.keys_mapKeys]

theorem checkFiles_eq {maxKey : ℕ} {order : List ℕ} {files : List File}
    (horder : order.Perm (List.range files.length))
    (hcheck : ∀ f ∈ files, check maxKey f = .ok ()) :
    ∃ units, checkFiles maxKey order files = .ok (files, units) := by
  have hbody : ∀ f ∈ files, ((check maxKey f).map fun r => (f, r)) = .ok (id f, ()) := by
    intro f hf
    rw [hcheck f hf]
    rfl
  obtain ⟨units, hunits, -⟩ := Batch.each_eq_ok horder hbody
  rw [show files.map (fun f => id f) = files from List.map_id files] at hunits
  exact ⟨units, hunits⟩

/-- **Both tools**: the table of the first one, for any number of threads and any orders of
iteration, is one that the second one can use. In every schedule of the second tool its checks pass,
and the files have the same requests and dimensions with numbers for the ids. The numbers of the ids
that occur are a bijection onto the first numbers, and a number occurs as often as its id did. -/
theorem renumber_wordCount (it : Iteration) {threadCount threadCount' : ℕ} (ht : 0 < threadCount)
    (ht' : 0 < threadCount') {files : List File} (hfiles : files ≠ []) {ps : List Parsed}
    (hps : files.mapM parse = .ok ps) (hids : (allKeys ps).dedup.length ≤ 2 ^ 31) :
    ∃ out, wordCount it threadCount files = .ok out ∧
      ∀ s order checkOrder, s.Allowed out → Interleaved threadCount' files.length order →
        Interleaved threadCount' files.length checkOrder →
        ∃ m files' metas, renumberMap out s = .ok m ∧
          renumberMain out s order checkOrder files = .ok (files', metas) ∧
          files'.mapM parse = .ok (ps.map (Parsed.mapKeys (number m))) ∧
          metas.Perm (ps.map Parsed.fileMeta) ∧
          Set.BijOn (number m) {id | id ∈ allKeys ps} (Set.Iio (allKeys ps).dedup.length) ∧
          ∀ id ∈ allKeys ps, (allKeys (ps.map (Parsed.mapKeys (number m)))).count
            (.ofNat (number m id)) = (allKeys ps).count id := by
  obtain ⟨c, hc, htotals⟩ := wordCount_eq it ht hfiles hps
  have hn : keyNum (writeCounter c) ≤ 2 ^ 31 := htotals.keyNum ▸ hids
  refine ⟨_, hc, fun s order checkOrder hs horder hcheckOrder => ?_⟩
  rw [Interleaved, Split.flatMap_part _ ht'] at horder hcheckOrder
  have hbij := hs.bijOn htotals.ids_nodup hn
  have hm := hs.renumberMap_eq (Nat.mul_mod_right 16 c.length) htotals.ids_nodup hn
  generalize hmap : InsertMap.insertAll s.numberOrder = m at hbij hm
  have hfile : ∀ f ∈ files, ∃ f' p, parse f = .ok p ∧ renumberID m f = .ok (f', p.fileMeta) ∧
      parse f' = .ok (p.mapKeys (number m)) ∧ check (keyNum (writeCounter c)) f' = .ok () := by
    intro f hf
    obtain ⟨p, hp, hparse⟩ := Batch.exists_of_mapM hps hf
    obtain ⟨f', hfile⟩ := hs.renumber_file htotals.ids_nodup hn hparse fun key hkey =>
      htotals.mem_ids.mpr (List.mem_flatMap.mpr ⟨p, hp, hkey⟩)
    exact ⟨f', p, hparse, hmap ▸ hfile⟩
  have : Nonempty File := ⟨files.head hfiles⟩
  have : Nonempty Parsed := ⟨⟨0, []⟩⟩
  choose! after parsed hparsed hrenumber hafter hcheck using hfile
  obtain rfl : files.map parsed = ps :=
    Except.ok.inj ((Batch.mapM_eq_ok_map hparsed).symm.trans hps)
  obtain ⟨metas, hmetas, hperm⟩ : ∃ metas, renumberFiles m order files =
      .ok (files.map after, metas) ∧ metas.Perm (files.map fun f => (parsed f).fileMeta) :=
    Batch.each_eq_ok horder hrenumber
  rw [← List.length_map (f := after)] at hcheckOrder
  obtain ⟨units, hunits⟩ := checkFiles_eq hcheckOrder fun f' hf' => by
    obtain ⟨f, hf, rfl⟩ := List.mem_map.mp hf'
    exact hcheck f hf
  refine ⟨m, files.map after, metas, hm, ?_, ?_, ?_, ?_, fun id hid => ?_⟩
  · have hne : files.length ≠ 0 := fun h0 => hfiles (List.length_eq_zero_iff.mp h0)
    rw [renumberMain, if_neg hne, hm]
    simp only [hmetas, hunits]
  · rw [Batch.mapM_eq_ok_iff, List.forall₂_map_left_iff, List.map_map, List.forall₂_map_right_iff,
      List.forall₂_same]
    exact hafter
  · rw [List.map_map]
    exact hperm
  · rw [← htotals.keyNum]
    have hset : {id | id ∈ ids (writeCounter c)} = {id | id ∈ allKeys (files.map parsed)} :=
      Set.ext fun id => htotals.mem_ids
    exact hset ▸ hbij
  · -- different ids have different numbers, as numbers of `64` bits too
    rw [allKeys_map_mapKeys, List.count, List.countP_map, List.count]
    refine List.countP_congr fun x hx => ?_
    have hlt : ∀ y ∈ allKeys (files.map parsed), number m y < 2 ^ 64 := fun y hy => by
      have hlt : number m y < keyNum (writeCounter c) := hbij.mapsTo (htotals.mem_ids.mpr hy)
      omega
    simp only [Function.comp_apply, beq_iff_eq]
    refine ⟨fun heq => ?_, fun heq => by rw [heq]⟩
    have hnat := congrArg UInt64.toNat heq
    rw [UInt64.toNat_ofNat_of_lt' (hlt x hx), UInt64.toNat_ofNat_of_lt' (hlt id hid)] at hnat
    exact hbij.injOn (htotals.mem_ids.mpr hx) (htotals.mem_ids.mpr hid) hnat

/-- Both tools on the two files: the only id becomes `0`. -/
theorem renumber_wordCount_two_files : ∃ out s files' metas,
    wordCount .plain 3 [oneRequest, oneRequest] = .ok out ∧ s.Allowed out ∧
    renumberMain out s [1, 0] [0, 1] [oneRequest, oneRequest] = .ok (files', metas) ∧
    files'.mapM parse = .ok [⟨1, [⟨1, [(0, 8)]⟩]⟩, ⟨1, [⟨1, [(0, 8)]⟩]⟩] := by
  have horder : ∀ order : List ℕ, order.Perm [0, 1] → Interleaved 2 2 order := fun _ h => h
  obtain ⟨out, hout, htool⟩ := renumber_wordCount .plain (show 0 < 3 by decide)
    (show 0 < 2 by decide) (List.cons_ne_nil oneRequest [oneRequest]) mapM_parse_oneRequest
    (by decide)
  have hs := allowed_of_perm (List.Perm.refl (ids out))
  obtain ⟨m, files', metas, -, hmain, hparse, -, hbij, -⟩ :=
    htool _ [1, 0] [0, 1] hs (horder _ (List.Perm.swap 0 1 [])) (horder _ (List.Perm.refl _))
  refine ⟨out, _, files', metas, hout, hs, hmain, ?_⟩
  have hnumber : number m 2 = 0 := by
    have hlt : number m 2 < 1 := hbij.mapsTo (show (2 : UInt64) ∈ _ from List.mem_cons_self)
    omega
  rw [hparse]
  simp only [List.map_cons, List.map_nil, Parsed.mapKeys, Request.mapKeys, hnumber]
  rfl

end Dataset

end PetPS
