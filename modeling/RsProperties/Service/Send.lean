import RsProperties.Service.Client
import RsProperties.Library.Trace

/-!
# Short writes

The loop of `ServiceWriter::send` as a transition system over its socket: every iteration rebuilds the
slices from the running byte count, offers them in one `write_vectored` and adds what the socket took. The
socket may take any part of the offer, a call may be interrupted or fail, and the time budget may run out
between two calls.

The bytes the socket has accepted are the first `written` bytes of the fragments, in every state; this alone
makes the next offer the rest of the frame, wherever the last write was cut.
-/

namespace RsProperties

open ByteMem

namespace Client

/-- A `send` under way: its byte count, what its socket has accepted, and its result once it has returned. -/
structure Sending where
  written : ℕ
  accepted : Bytes
  returned : Option (Except Error Unit)

def Sending.start : Sending where
  written := 0
  accepted := []
  returned := none

/-- What happens in an iteration of the loop: a `write_vectored` of some slices with its result, or the
deadline has passed. The loop ends with a flush. -/
inductive SendEvent
  | call (slices : List Bytes) (r : WriteResult)
  | expired
  | flush

/-- The loop body behind `write_vectored`. -/
def Sending.afterWrite (s : Sending) (slices : List Bytes) : WriteResult → Sending
  | .wrote n =>
    let accepted := s.accepted ++ slices.flatten.take n
    if n = 0 then
      { s with accepted, returned := some (.error (.io "property service socket closed mid-write")) }
    else { s with accepted, written := s.written + n }
  | .interrupted => s
  | .failed timedOut msg =>
    { s with returned := some (.error (mapTimeoutErr timedOut msg "sending property service request")) }

/-- A successful write takes at most what was offered. -/
def WriteResult.Fits (slices : List Bytes) : WriteResult → Prop
  | .wrote n => n ≤ slices.flatten.length
  | _ => True

instance (slices : List Bytes) (r : WriteResult) : Decidable (r.Fits slices) :=
  match r with
  | .wrote n => inferInstanceAs (Decidable (n ≤ slices.flatten.length))
  | .interrupted => .isTrue trivial
  | .failed _ _ => .isTrue trivial

/-- The steps of `send`. -/
inductive SendStep (buffers : List Bytes) : Sending → SendEvent → Sending → Prop
  | call {s : Sending} {r : WriteResult} (hrun : s.returned = none)
      (hmore : s.written < buffers.flatten.length) (hr : r.Fits (slicesFrom s.written buffers)) :
      SendStep buffers s (.call (slicesFrom s.written buffers) r)
        (s.afterWrite (slicesFrom s.written buffers) r)
  | expired {s : Sending} (hrun : s.returned = none) (hmore : s.written < buffers.flatten.length) :
      SendStep buffers s .expired
        { s with returned := some (.error (sendExpired s.written buffers.flatten.length)) }
  | flush {s : Sending} (hrun : s.returned = none) (hdone : ¬ s.written < buffers.flatten.length) :
      SendStep buffers s .flush { s with returned := some (.ok ()) }

/-- The runs of `send` on a list of fragments. -/
def SendRun (buffers : List Bytes) : List SendEvent → Sending → Prop :=
  Trace.Run (· = Sending.start) (SendStep buffers)

/-! ### The slices of one call -/

/-- No slice that is offered is empty. -/
theorem ne_nil_of_mem_slicesFrom {skip : ℕ} {buffers : List Bytes} {slice : Bytes}
    (h : slice ∈ slicesFrom skip buffers) : slice ≠ [] := by
  induction buffers generalizing skip with
  | nil => simp [slicesFrom] at h
  | cons buf rest ih =>
    rw [slicesFrom] at h
    split_ifs at h with hle
    · exact ih h
    · rcases List.mem_cons.mp h with rfl | h
      · simpa using hle
      · exact ih h

/-- While bytes are missing there is a slice to offer. -/
theorem slicesFrom_ne_nil {skip : ℕ} {buffers : List Bytes} (h : skip < buffers.flatten.length) :
    slicesFrom skip buffers ≠ [] := by
  intro hnil
  have hdrop := flatten_slicesFrom skip buffers
  rw [hnil, List.flatten_nil, eq_comm, List.drop_eq_nil_iff] at hdrop
  omega

/-! ### Runs -/

/-- The invariant of the loop: the socket has accepted the first `written` bytes of the fragments. -/
structure SendInv (buffers : List Bytes) (s : Sending) : Prop where
  written_le : s.written ≤ buffers.flatten.length
  accepted_eq : s.accepted = buffers.flatten.take s.written
  complete : s.returned = some (.ok ()) → s.written = buffers.flatten.length

variable {buffers : List Bytes} {H : List SendEvent} {s s' : Sending}

/-- A write adds the next bytes of the fragments, however many the socket takes. -/
theorem SendInv.afterWrite (h : SendInv buffers s) (hrun : s.returned = none) {r : WriteResult}
    (hr : r.Fits (slicesFrom s.written buffers)) :
    SendInv buffers (s.afterWrite (slicesFrom s.written buffers) r) := by
  cases r with
  | wrote n =>
    have hn : n ≤ buffers.flatten.length - s.written := by
      have hfits : n ≤ (slicesFrom s.written buffers).flatten.length := hr
      rwa [flatten_slicesFrom, List.length_drop] at hfits
    have hacc : s.accepted ++ (slicesFrom s.written buffers).flatten.take n =
        buffers.flatten.take (s.written + n) := by
      rw [h.accepted_eq, flatten_slicesFrom, List.take_add]
    have hle := h.written_le
    simp only [Sending.afterWrite]
    split_ifs with h0
    · refine ⟨hle, ?_, by simp⟩
      rw [hacc, h0, Nat.add_zero]
    · exact ⟨by dsimp only; omega, hacc, by simp [hrun]⟩
  | interrupted => exact h
  | failed timedOut msg => exact ⟨h.written_le, h.accepted_eq, by simp [Sending.afterWrite]⟩

theorem SendInv.step (h : SendInv buffers s) {x : SendEvent} (hs : SendStep buffers s x s') :
    SendInv buffers s' := by
  cases hs with
  | call hrun hmore hr => exact h.afterWrite hrun hr
  | expired hrun hmore => exact ⟨h.written_le, h.accepted_eq, by simp⟩
  | flush hrun hdone =>
    exact ⟨h.written_le, h.accepted_eq, fun _ => le_antisymm h.written_le (Nat.not_lt.mp hdone)⟩

theorem SendRun.inv (h : SendRun buffers H s) : SendInv buffers s := by
  refine Trace.Run.invariant (I := fun _ s => SendInv buffers s) ?_ (fun _ _ _ _ hi => hi.step) h
  rintro s rfl
  exact ⟨Nat.zero_le _, rfl, by simp [Sending.start]⟩

/-- **Short writes never corrupt a frame.** In every state of every run of `send`, however the socket cuts
the writes: each call so far offered a non-empty list of non-empty slices, the bytes the socket has accepted
are a prefix of the fragments put together, and once `send` has returned `Ok` they are exactly these. -/
theorem send_prefix (h : SendRun buffers H s) :
    (∀ slices r, .call slices r ∈ H → slices ≠ [] ∧ ∀ slice ∈ slices, slice ≠ []) ∧
    s.accepted <+: buffers.flatten ∧
    (s.returned = some (.ok ()) → s.accepted = buffers.flatten) := by
  have hinv := h.inv
  refine ⟨fun slices r hcall => ?_, ?_, fun hok => ?_⟩
  · obtain ⟨H₁, H₂, rfl⟩ := List.append_of_mem hcall
    obtain ⟨s₁, s₂, -, hstep⟩ := Trace.Run.exists_step h
    cases hstep with
    | call hrun hmore hr => exact ⟨slicesFrom_ne_nil hmore, fun _ => ne_nil_of_mem_slicesFrom⟩
  · rw [hinv.accepted_eq]
    exact List.take_prefix _ _
  · rw [hinv.accepted_eq, hinv.complete hok, List.take_length]

/-- A run with an empty fragment, a write cut inside a fragment and an interruption. -/
theorem send_prefix_cut :
    ∃ H s, SendRun [[1, 2], [], [3]] H s ∧ s.returned = some (.ok ()) ∧ s.accepted = [1, 2, 3] := by
  have h0 : SendRun [[1, 2], [], [3]] [] Sending.start := .start rfl
  have h1 := h0.snoc (.call (r := .wrote 1) rfl (by decide) (by decide))
  have h2 := h1.snoc (.call (r := .interrupted) rfl (by decide) trivial)
  have h3 := h2.snoc (.call (r := .wrote 2) rfl (by decide) (by decide))
  have h4 := h3.snoc (.flush rfl (by decide))
  have h := send_prefix h4
  exact ⟨_, _, h4, rfl, h.2.2 rfl⟩

/-- The function `send` of the client follows a run to its end. -/
theorem exists_run_of_sendLoop {results : List WriteResult} {wire : Bytes} (h : SendRun buffers H s)
    (hrun : s.returned = none) (hs : sendLoop buffers results s.written s.accepted = .ok wire) :
    ∃ H' s', SendRun buffers H' s' ∧ s'.returned = some (.ok ()) ∧ s'.accepted = wire := by
  induction results generalizing H s with
  | nil =>
    rw [sendLoop] at hs
    split_ifs at hs with hdone
    exact ⟨_, _, h.snoc (.flush hrun (Nat.not_lt.mpr hdone)), rfl, Except.ok.inj hs⟩
  | cons r results ih =>
    by_cases hdone : buffers.flatten.length ≤ s.written
    · have hout : sendLoop buffers (r :: results) s.written s.accepted = .ok s.accepted := by
        cases r <;> rw [sendLoop, if_pos hdone]
      rw [hout] at hs
      exact ⟨_, _, h.snoc (.flush hrun (Nat.not_lt.mpr hdone)), rfl, Except.ok.inj hs⟩
    have hmore := Nat.not_le.mp hdone
    cases r with
    | wrote n =>
      rw [sendLoop, if_neg hdone] at hs
      -- the socket took the whole offer if `n` names more
      generalize hout : (slicesFrom s.written buffers).flatten.take n = out at hs
      have hpre : out <+: (slicesFrom s.written buffers).flatten := hout ▸ List.take_prefix _ _
      dsimp only at hs
      split_ifs at hs with hn
      have hlen : out.length ≠ 0 := by
        rw [← hout, flatten_slicesFrom, List.length_take, List.length_drop]
        omega
      have hnext : s.afterWrite (slicesFrom s.written buffers) (.wrote out.length) =
          { s with accepted := s.accepted ++ out, written := s.written + out.length } := by
        rw [Sending.afterWrite, if_neg hlen, ← List.prefix_iff_eq_take.mp hpre]
      refine ih (h.snoc (.call (r := .wrote out.length) hrun hmore hpre.length_le)) ?_ ?_
      · rw [hnext]
        exact hrun
      · rw [hnext]
        exact hs
    | interrupted =>
      rw [sendLoop, if_neg hdone] at hs
      exact ih (h.snoc (.call (r := .interrupted) hrun hmore trivial)) hrun hs
    | failed timedOut msg =>
      rw [sendLoop, if_neg hdone] at hs
      cases hs

/-- A completed `send` of the client is a completed run, with the same bytes on the wire. -/
theorem exists_run_of_send {results : List WriteResult} {wire : Bytes}
    (h : send buffers results = .ok wire) :
    ∃ H s, SendRun buffers H s ∧ s.returned = some (.ok ()) ∧ s.accepted = wire :=
  exists_run_of_sendLoop (s := Sending.start) (.start rfl) rfl h

end Client

end RsProperties
