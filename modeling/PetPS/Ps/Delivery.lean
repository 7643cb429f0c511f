import PetPS.Lib.Run
import PetPS.Ps.Server

/-!
# Delivery of GET replies

A polling thread handles one GET after the other. It copies the values into its RDMA buffer,
the same one every time, posts the writes and goes on to the next request; the network card reads
the buffer when it executes a write. The machine below handles requests and executes posted writes
in any order.

A write that is executed after the next request has been handled sends that one's values. So the
replies are right as long as no posted write is outstanding when a GET is handled; the polling loop
does not wait for that.

## Main results

* `Delivering.step` — what one event keeps
* `replies_not_mixed` — in a run that handles a GET only when no write is outstanding, every reply
  consists of the values of its own keys
-/

namespace PetPS

namespace Delivery

/-- A polling thread and its clients. -/
structure Server where
  /-- The thread's RDMA buffer. -/
  buf : Bytes.Mem
  /-- The requests handled so far. -/
  requests : List (List UInt64)
  /-- The writes that are posted and not executed, with the number of their request. -/
  pending : List (ℕ × WorkRequest)
  /-- The memory of the client at the receive address of each request. -/
  received : ℕ → Bytes.Mem

/-- What can happen next. -/
inductive Event
  /-- The thread handles a GET. -/
  | get (keys : List UInt64)
  /-- The `j`-th outstanding write is executed. -/
  | send (j : ℕ)

/-- One event. -/
def step (flags : Flags) (kv : PetMultiKV) (s : Server) : Event → Option Server
  | .get keys =>
    match rpcPsGet flags kv s.buf keys with
    | .error _ => none
    | .ok (buf, wrs) =>
      some { s with
        buf := buf
        requests := s.requests ++ [keys]
        pending := s.pending ++ wrs.map fun w => (s.requests.length, w) }
  | .send j =>
    match s.pending[j]? with
    | none => none
    | some (r, w) =>
      some { s with
        pending := s.pending.eraseIdx j
        received := Function.update s.received r
          (Bytes.store (s.received r) w.remoteAddr (gather s.buf w.sgList)) }

/-- A thread that has handled no request. -/
def start (buf : Bytes.Mem) (received : ℕ → Bytes.Mem) : Server := ⟨buf, [], [], received⟩

/-- A GET is handled when no write is outstanding. -/
def Quiet (s : Server) : Event → Prop
  | .get _ => s.pending = []
  | .send _ => True

/-- The values of the keys, one behind the other. -/
def valuesOf (kv : PetMultiKV) (keys : List UInt64) : List UInt8 :=
  keys.flatMap fun key => (kv.stored key).getD []

/-- The thread between two events. -/
structure Delivering (kv : PetMultiKV) (s : Server) : Prop where
  /-- A byte of a reply has arrived, or a write for it is outstanding. -/
  bytes : ∀ r keys, s.requests[r]? = some keys → ∀ x < (valuesOf kv keys).length,
    (∃ w, (r, w) ∈ s.pending ∧ w.Covers x) ∨ s.received r x = (valuesOf kv keys).getD x 0
  /-- An outstanding write copies a part of its reply, which is in the buffer. -/
  pending : ∀ r w, (r, w) ∈ s.pending →
    (∀ m, gather m w.sgList = Bytes.load m w.remoteAddr w.size) ∧
    ∃ keys, s.requests[r]? = some keys ∧ w.remoteAddr + w.size ≤ (valuesOf kv keys).length ∧
      Bytes.load s.buf 0 (valuesOf kv keys).length = valuesOf kv keys

theorem delivering_start {kv : PetMultiKV} (buf : Bytes.Mem) (received : ℕ → Bytes.Mem) :
    Delivering kv (start buf received) where
  bytes _ _ hr := nomatch hr
  pending _ _ hw := nomatch hw

section Events

variable {flags : Flags} {kv : PetMultiKV} {s s' : Server}

/-- A GET is handled. -/
theorem Delivering.get (h : Delivering kv s) (hc : kv.HoldsFloats)
    (hmethod : flags.prefetchMethod ≤ 1) {keys : List UInt64} (hquiet : s.pending = [])
    (hstep : step flags kv s (.get keys) = some s') : Delivering kv s' := by
  have hmax : keys.length ≤ flags.maxKvNumPerRequest := by
    by_contra hgt
    rw [step, rpcPsGet, if_pos (not_le.mp hgt)] at hstep
    cases hstep
  obtain ⟨wrs, hget, htiles, htotal⟩ := rpcPsGet_spec hc hmethod hmax s.buf
  simp only [step, hget, hquiet, List.nil_append, Option.some.injEq] at hstep
  subst hstep
  have hpend : ∀ r w, (r, w) ∈ wrs.map (fun w => (s.requests.length, w)) ↔
      r = s.requests.length ∧ w ∈ wrs := fun r w => by
    rw [List.mem_map]
    constructor
    · rintro ⟨w', hw', heq⟩
      obtain ⟨rfl, rfl⟩ := Prod.mk.inj heq
      exact ⟨rfl, hw'⟩
    · rintro ⟨rfl, hw⟩
      exact ⟨w, hw, rfl⟩
  refine ⟨fun r keys' hr x hx => ?_, fun r w hrw => ?_⟩
  · rcases Nat.lt_or_ge r s.requests.length with hlt | hge
    · -- an earlier request, all of whose bytes have arrived
      rw [List.getElem?_append_left hlt] at hr
      rcases h.bytes r keys' hr x hx with ⟨w, hw, -⟩ | hok
      · rw [hquiet] at hw
        cases hw
      · exact Or.inr hok
    · have hr' : r = s.requests.length := by
        have := (List.getElem?_eq_some_iff.mp hr).1
        rw [List.length_append, List.length_singleton] at this
        omega
      subst hr'
      rw [List.getElem?_concat_length] at hr
      obtain rfl := Option.some.inj hr
      obtain ⟨w, hw, hcov⟩ := htiles.covers (Nat.zero_le x) (by rw [htotal, Nat.zero_add]; exact hx)
      exact Or.inl ⟨w, (hpend _ _).mpr ⟨rfl, hw⟩, hcov⟩
  · obtain ⟨rfl, hw⟩ := (hpend r w).mp hrw
    obtain ⟨hgather, hle⟩ := htiles.mem hw
    rw [Nat.zero_add, htotal] at hle
    exact ⟨hgather, keys, List.getElem?_concat_length, hle, Bytes.load_store_self⟩

/-- A write is executed. -/
theorem Delivering.send (h : Delivering kv s) {j : ℕ}
    (hstep : step flags kv s (.send j) = some s') : Delivering kv s' := by
  simp only [step] at hstep
  split at hstep
  · cases hstep
  · next r w hj =>
    simp only [Option.some.injEq] at hstep
    subst hstep
    obtain ⟨hgather, keys, hr, hle, hbuf⟩ := h.pending r w (List.mem_of_getElem? hj)
    refine ⟨fun r' keys' hr' x hx => ?_,
      fun r' w' hw' => h.pending r' w' (List.mem_of_mem_eraseIdx hw')⟩
    by_cases hsame : r' = r ∧ w.Covers x
    · -- the write carries this byte
      obtain ⟨rfl, hlo, hhi⟩ := hsame
      obtain rfl := Option.some.inj (hr.symm.trans hr')
      right
      simp only [Function.update_self]
      rw [hgather, Bytes.store_apply_of_mem hlo (by rw [Bytes.length_load]; exact hhi),
        Bytes.getD_load (by omega), Nat.add_sub_cancel' hlo]
      simpa using Bytes.load_eq_iff.mp hbuf x hx
    · rcases h.bytes r' keys' hr' x hx with ⟨w', hw', hcov⟩ | harrived
      · -- another write does
        obtain ⟨k, hk⟩ := List.getElem?_of_mem hw'
        refine Or.inl ⟨w', List.mem_eraseIdx_iff_getElem?.mpr ⟨k, ?_, hk⟩, hcov⟩
        rintro rfl
        obtain ⟨rfl, rfl⟩ := Prod.mk.inj (Option.some.inj (hj.symm.trans hk))
        exact hsame ⟨rfl, hcov⟩
      · right
        simp only
        rw [Function.update_apply]
        split_ifs with heq
        · subst heq
          rw [hgather, Bytes.store_apply_of_notMem, harrived]
          rw [Bytes.length_load]
          have hnot := not_and.mp hsame rfl
          rw [WorkRequest.Covers] at hnot
          omega
        · exact harrived

/-- **What one event keeps**, if a GET is handled only when no write is outstanding. -/
theorem Delivering.step (h : Delivering kv s) (hc : kv.HoldsFloats)
    (hmethod : flags.prefetchMethod ≤ 1)
    {event : Event} (hquiet : Quiet s event) (hstep : step flags kv s event = some s') :
    Delivering kv s' := by
  cases event with
  | get keys => exact h.get hc hmethod hquiet hstep
  | send j => exact h.send hstep

end Events

/-- **Replies are not mixed up**, in every run that handles a GET only when no posted write is
outstanding: a request whose writes are executed has received the values of its own keys. A GET of
as many keys as are allowed is always handled. -/
theorem replies_not_mixed {kv : PetMultiKV} (hc : kv.HoldsFloats) {flags : Flags}
    (hmethod : flags.prefetchMethod ≤ 1) {buf : Bytes.Mem} {received : ℕ → Bytes.Mem}
    {events : List Event} (hquiet : Run.Guarded (step flags kv) Quiet (start buf received) events)
    {s : Server} (hrun : Run.run (step flags kv) (start buf received) events = some s) :
    (∀ r keys, s.requests[r]? = some keys → (∀ w, (r, w) ∉ s.pending) →
      Bytes.load (s.received r) 0 (valuesOf kv keys).length = valuesOf kv keys) ∧
    ∀ keys : List UInt64, keys.length ≤ flags.maxKvNumPerRequest →
      ∃ s', step flags kv s (.get keys) = some s' := by
  have hend : Delivering kv s := Run.run_history (P := fun _ => Delivering kv)
    (fun _ _ _ _ h hq hstep => h.step hc hmethod hq hstep) [] (delivering_start buf received)
    hquiet hrun
  refine ⟨fun r keys hr hdone => Bytes.load_eq_iff.mpr fun x hx => ?_, fun keys hmax => ?_⟩
  · rcases hend.bytes r keys hr x hx with ⟨w, hw, -⟩ | harrived
    · exact absurd hw (hdone w)
    · rw [Nat.zero_add, harrived]
  · obtain ⟨wrs, hget, -⟩ := rpcPsGet_spec hc hmethod hmax s.buf
    rw [step, hget]
    exact ⟨_, rfl⟩

/-! ### Two requests -/

section TwoKeys

variable {s₀ : PetKV} {s : Bool → Bool → PetKV} {getShard : UInt64 → Fin 16} {t : Server}

/-- One write for a GET, in the plain branch. -/
theorem step_get_twoKeys (hs : Shards s₀ s) {keys : List UInt64} (hmax : keys.length ≤ 300) :
    step ⟨false, 1, 300⟩ (twoKeys s getShard) t (.get keys)
      = some { t with
          buf := Bytes.store t.buf 0 (valuesOf (twoKeys s getShard) keys)
          requests := t.requests ++ [keys]
          pending := t.pending ++ [(t.requests.length,
            ⟨0, [⟨0, (valuesOf (twoKeys s getShard) keys).length⟩]⟩)] } := by
  rw [step, rpcPsGet_eq ((hs.content getShard).holdsFloats (by decide)) (by decide) hmax]
  rfl

theorem step_send {flags : Flags} {kv : PetMultiKV} {j r : ℕ} {w : WorkRequest}
    (h : t.pending[j]? = some (r, w)) : step flags kv t (.send j)
      = some { t with
          pending := t.pending.eraseIdx j
          received := Function.update t.received r
            (Bytes.store (t.received r) w.remoteAddr (gather t.buf w.sgList)) } := by
  rw [step, h]

theorem replies_not_mixed_two_gets : ∃ s₀ s, Shards s₀ s ∧ ∀ getShard : UInt64 → Fin 16,
    ∃ t, Run.run (step ⟨false, 1, 300⟩ (twoKeys s getShard)) (start (fun _ => 0) fun _ _ => 0)
        [.get [7], .send 0, .get [9, 7], .send 0] = some t ∧ t.pending = [] ∧
      Bytes.load (t.received 0) 0 4 = [1, 2, 3, 4] ∧
      Bytes.load (t.received 1) 0 8 = [5, 6, 7, 8, 1, 2, 3, 4] := by
  obtain ⟨s₀, s, hs⟩ := exists_shards
  refine ⟨s₀, s, hs, fun getShard => ?_⟩
  obtain ⟨t, hrun, hreq, hpend⟩ : ∃ t, Run.run (step ⟨false, 1, 300⟩ (twoKeys s getShard))
      (start (fun _ => 0) fun _ _ => 0) [.get [7], .send 0, .get [9, 7], .send 0] = some t ∧
      t.requests = [[7], [9, 7]] ∧ t.pending = [] := by
    rw [Run.run_cons, step_get_twoKeys hs (by decide), Option.bind_some, Run.run_cons,
      step_send rfl,
      Option.bind_some, Run.run_cons, step_get_twoKeys hs (by decide),
        Option.bind_some, Run.run_cons,
      step_send rfl, Option.bind_some, Run.run_nil]
    exact ⟨_, rfl, rfl, rfl⟩
  have hquiet : Run.Guarded (step ⟨false, 1, 300⟩ (twoKeys s getShard)) Quiet
      (start (fun _ => 0) fun _ _ => 0) [.get [7], .send 0, .get [9, 7], .send 0] := by
    refine ⟨rfl,
      fun t₁ h₁ => ⟨trivial, fun t₂ h₂ => ⟨?_, fun _ _ => ⟨trivial, fun _ _ => trivial⟩⟩⟩⟩
    rw [step_get_twoKeys hs (by decide), Option.mem_some_iff] at h₁
    subst h₁
    rw [step_send rfl, Option.mem_some_iff] at h₂
    subst h₂
    rfl
  have hall := (replies_not_mixed ((hs.content getShard).holdsFloats (by decide)) (by decide) hquiet
    hrun).1
  refine ⟨t, hrun, hpend, ?_, ?_⟩
  · have hseven := hall 0 [7] (by rw [hreq]; rfl) (by simp [hpend])
    simpa [valuesOf, hs.stored] using hseven
  · have hboth := hall 1 [9, 7] (by rw [hreq]; rfl) (by simp [hpend])
    simpa [valuesOf, hs.stored] using hboth

/-- The write for key `7` is executed after key `9` has been copied to the buffer. -/
theorem late_write_sends_next_reply : ∃ s₀ s, Shards s₀ s ∧ ∀ getShard : UInt64 → Fin 16,
    (twoKeys s getShard).stored 7 = some [1, 2, 3, 4] ∧
    ∃ t, Run.run (step ⟨false, 1, 300⟩ (twoKeys s getShard)) (start (fun _ => 0) fun _ _ => 0)
        [.get [7], .get [9], .send 0, .send 0] = some t ∧
      t.requests[0]? = some [7] ∧ t.pending = [] ∧
        Bytes.load (t.received 0) 0 4 = [5, 6, 7, 8] := by
  obtain ⟨s₀, s, hs⟩ := exists_shards
  refine ⟨s₀, s, hs, fun getShard => ⟨by rw [hs.stored]; rfl, ?_⟩⟩
  have hseven : valuesOf (twoKeys s getShard) [7] = [1, 2, 3, 4] := by simp [valuesOf, hs.stored]
  have hnine : valuesOf (twoKeys s getShard) [9] = [5, 6, 7, 8] := by simp [valuesOf, hs.stored]
  rw [Run.run_cons, step_get_twoKeys hs (by decide), Option.bind_some, Run.run_cons,
    step_get_twoKeys hs (by decide), Option.bind_some, Run.run_cons, step_send rfl,
      Option.bind_some,
    Run.run_cons, step_send rfl, Option.bind_some, Run.run_nil, hseven, hnine]
  exact ⟨_, rfl, rfl, rfl, by decide⟩

end TwoKeys

end Delivery

end PetPS
