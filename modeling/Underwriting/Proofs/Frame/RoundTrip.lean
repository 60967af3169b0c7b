import Mathlib.Data.List.Induction
import Underwriting.Proofs.Frame.Reading

/-! # Frames written and read back

Payloads are written in turn to one stream that takes all that is written. Those that may not
stand in a frame are refused and leave the stream as it was; reading the stream to its end
gives all others back.
-/
namespace Underwriting.Frame

/-- The stream after attempts to write payloads in turn, from a healthy stream without bytes. -/
def writeAll (limit : UInt32) (payloads : List Bytes) : Output :=
  payloads.foldl (fun out payload => (write limit out payload).2) ⟨[], true⟩

theorem WriteError.message_ne_empty (e : WriteError) : e.message ≠ "" := by
  cases e with
  | emptyFrame => decide
  | tooLong n limit => exact lengthMessage_ne_empty n limit
  | brokenStream => decide

theorem write_of_allowed {limit : UInt32} {payload : Bytes} (h : Allowed limit payload)
    (bytes : Bytes) :
    write limit ⟨bytes, true⟩ payload = (none, ⟨bytes ++ encode payload, true⟩) := by
  obtain ⟨hpos, hfits⟩ := h
  have hsome : payload.isEmpty = false := by
    cases payload with
    | nil => simp at hpos
    | cons b bs => rfl
  rw [write, hsome, if_neg Bool.false_ne_true, if_neg (by omega)]
  simp [Output.append, encode]

theorem write_of_not_allowed {limit : UInt32} {payload : Bytes} (h : ¬ Allowed limit payload)
    (out : Output) : ∃ e, write limit out payload = (some e, out) := by
  cases payload with
  | nil => exact ⟨.emptyFrame, rfl⟩
  | cons b bs =>
    have hlong : (b :: bs).length > limit.toNat := by
      simp only [Allowed, List.length_cons] at h ⊢
      omega
    refine ⟨.tooLong (b :: bs).length limit, ?_⟩
    rw [write, List.isEmpty_cons, if_neg Bool.false_ne_true, if_pos hlong]

theorem writeAll_concat (limit : UInt32) (before : List Bytes) (payload : Bytes) :
    writeAll limit (before ++ [payload]) = (write limit (writeAll limit before) payload).2 := by
  rw [writeAll, List.foldl_append]
  rfl

theorem writeAll_eq (limit : UInt32) (payloads : List Bytes) :
    writeAll limit payloads =
      ⟨(payloads.filter fun p => Allowed limit p).flatMap encode, true⟩ := by
  induction payloads using List.reverseRecOn with
  | nil => rfl
  | append_singleton before payload ih =>
    rw [writeAll_concat, ih, List.filter_append, List.flatMap_append]
    by_cases hallowed : Allowed limit payload
    · rw [write_of_allowed hallowed]
      simp [hallowed]
    · obtain ⟨e, he⟩ := write_of_not_allowed hallowed
        ⟨(before.filter fun p => Allowed limit p).flatMap encode, true⟩
      rw [he]
      simp [hallowed]

/-- Whatever has been written before, a payload is written exactly when its length is allowed;
else there is an error with a message and the stream stays as it was. Reading all that was
written gives the written payloads in order and then the end of the stream. -/
theorem readAll_writeAll (limit : UInt32) (payloads : List Bytes) :
    (∀ before payload,
      if 1 ≤ payload.length ∧ payload.length ≤ limit.toNat then
        write limit (writeAll limit before) payload =
            (none, writeAll limit (before ++ [payload])) ∧
          (writeAll limit (before ++ [payload])).written =
            (writeAll limit before).written ++ encode payload
      else
        ∃ e, e.message ≠ "" ∧
          write limit (writeAll limit before) payload = (some e, writeAll limit before)) ∧
    readAll limit (writeAll limit payloads).written =
      ⟨payloads.filter fun p => 1 ≤ p.length ∧ p.length ≤ limit.toNat, .finished, []⟩ := by
  constructor
  · intro before payload
    rw [writeAll_concat, writeAll_eq]
    split
    · rename_i hallowed
      rw [write_of_allowed hallowed]
      exact ⟨rfl, rfl⟩
    · rename_i hallowed
      obtain ⟨e, he⟩ := write_of_not_allowed hallowed _
      exact ⟨e, e.message_ne_empty, he⟩
  · have hframes : ∀ f ∈ payloads.filter fun p => Allowed limit p, Allowed limit f := by
      intro f hf
      simpa using (List.mem_filter.mp hf).2
    have hend : readAll limit [] = ⟨[], .finished, []⟩ :=
      readAll_of_no_frame rfl (by simp)
    have hread := readAll_append _ hframes []
    rw [hend, List.append_nil, List.append_nil] at hread
    rw [writeAll_eq]
    exact hread

end Underwriting.Frame
