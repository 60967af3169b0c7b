import Mathlib.Algebra.Group.Nat.Defs
import Mathlib.Tactic.Common
import Underwriting.Frame

/-! # Reading a stream of frames

A stream is read frame by frame until no frame comes. The frames that are read are the longest
run of complete frames of allowed length at the front of the stream, and what ends the reading
is told by the bytes behind them alone: none are left, or there is one fault in them.
-/
namespace Underwriting.Frame

def littleEndian : Bytes → Nat
  | [] => 0
  | b :: bs => b.toNat + 2 ^ 8 * littleEndian bs

/-- The length that the header at the front of a stream announces. -/
def announced (stream : Bytes) : Nat := littleEndian (stream.take 4)

def Allowed (limit : UInt32) (payload : Bytes) : Prop :=
  1 ≤ payload.length ∧ payload.length ≤ limit.toNat

instance (limit : UInt32) (payload : Bytes) : Decidable (Allowed limit payload) :=
  inferInstanceAs (Decidable (_ ∧ _))

/-- Why no frame stands at the front of a stream that has not ended, and where the stream
stands after the attempt to read one. -/
inductive Fault (limit : UInt32) (stream : Bytes) : ReadError → Bytes → Prop where
  | headerTruncated (hsome : stream ≠ []) (hshort : stream.length < 4) :
      Fault limit stream .headerTruncated []
  | emptyFrame (hheader : 4 ≤ stream.length) (hzero : announced stream = 0) :
      Fault limit stream .emptyFrame (stream.drop 4)
  | tooLong (hheader : 4 ≤ stream.length) (hlong : limit.toNat < announced stream) :
      Fault limit stream (.tooLong (announced stream) limit) (stream.drop 4)
  | payloadTruncated (hheader : 4 ≤ stream.length) (hpos : 1 ≤ announced stream)
      (hfits : announced stream ≤ limit.toNat)
      (hshort : stream.length < 4 + announced stream) :
      Fault limit stream .payloadTruncated []

/-- What an attempt to read a frame comes to: the stream has ended, starts with a frame or has
a fault. -/
inductive Attempt (limit : UInt32) (stream : Bytes) : Next → Bytes → Prop where
  | finished (hend : stream = []) : Attempt limit stream .finished []
  | frame {payload rest : Bytes} (hallowed : Allowed limit payload)
      (hstream : stream = encode payload ++ rest) : Attempt limit stream (.frame payload) rest
  | failed {e : ReadError} {after : Bytes} (hfault : Fault limit stream e after) :
      Attempt limit stream (.failed e) after

theorem Fault.after_eq_nil {limit : UInt32} {stream after : Bytes} {e : ReadError}
    (h : Fault limit stream e after) (he : e = .headerTruncated ∨ e = .payloadTruncated) :
    after = [] := by
  cases h with
  | headerTruncated _ _ => rfl
  | emptyFrame _ _ => simp at he
  | tooLong _ _ => simp at he
  | payloadTruncated _ _ _ _ => rfl

/-! ## Headers -/

theorem announced_cons (a b c d : UInt8) (rest : Bytes) :
    announced (a :: b :: c :: d :: rest) = decodeLength a b c d := by
  simp only [announced, List.take_succ_cons, List.take_zero, littleEndian, decodeLength]
  omega

theorem length_encodeLength (n : Nat) : (encodeLength n).length = 4 := rfl

theorem length_encode (payload : Bytes) : (encode payload).length = 4 + payload.length := by
  rw [encode, List.length_append, length_encodeLength]

theorem announced_encodeLength {n : Nat} (h : n < 2 ^ 32) (rest : Bytes) :
    announced (encodeLength n ++ rest) = n := by
  rw [encodeLength, List.cons_append, List.cons_append, List.cons_append, List.cons_append,
    announced_cons]
  simp only [decodeLength, UInt8.toNat_ofNat']
  omega

theorem encodeLength_decodeLength (a b c d : UInt8) :
    encodeLength (decodeLength a b c d) = [a, b, c, d] := by
  have ha := a.toNat_lt
  have hb := b.toNat_lt
  have hc := c.toNat_lt
  have hd := d.toNat_lt
  have hbytes : ∀ (n : Nat) (x : UInt8), n % 2 ^ 8 = x.toNat → UInt8.ofNat n = x := by
    intro n x h
    rw [← UInt8.toNat_inj, UInt8.toNat_ofNat', h]
  simp only [encodeLength, decodeLength]
  rw [hbytes _ a (by omega), hbytes _ b (by omega), hbytes _ c (by omega), hbytes _ d (by omega)]

theorem Allowed.length_lt {limit : UInt32} {payload : Bytes} (h : Allowed limit payload) :
    payload.length < 2 ^ 32 :=
  Nat.lt_of_le_of_lt h.2 limit.toNat_lt

theorem Allowed.announced_encode {limit : UInt32} {payload : Bytes} (h : Allowed limit payload)
    (rest : Bytes) : announced (encode payload ++ rest) = payload.length := by
  rw [encode, List.append_assoc]
  exact announced_encodeLength h.length_lt _

theorem eq_encodeLength_append {stream : Bytes} (h : 4 ≤ stream.length) :
    stream = encodeLength (announced stream) ++ stream.drop 4 := by
  match stream, h with
  | a :: b :: c :: d :: rest, _ =>
    rw [announced_cons, encodeLength_decodeLength]
    rfl

/-! ## One frame -/

theorem read_header (limit : UInt32) {stream : Bytes} (h : 4 ≤ stream.length) :
    read limit stream =
      if announced stream = 0 then (.failed .emptyFrame, stream.drop 4)
      else if announced stream > limit.toNat then
        (.failed (.tooLong (announced stream) limit), stream.drop 4)
      else if (stream.drop 4).length < announced stream then (.failed .payloadTruncated, [])
      else (.frame ((stream.drop 4).take (announced stream)),
        (stream.drop 4).drop (announced stream)) := by
  match stream, h with
  | a :: b :: c :: d :: rest, _ =>
    rw [announced_cons]
    rfl

theorem read_short (limit : UInt32) {stream : Bytes} (hsome : stream ≠ [])
    (hshort : stream.length < 4) : read limit stream = (.failed .headerTruncated, []) := by
  match stream, hsome, hshort with
  | [_], _, _ => rfl
  | [_, _], _, _ => rfl
  | [_, _, _], _, _ => rfl

theorem read_encode {limit : UInt32} {payload : Bytes} (h : Allowed limit payload)
    (rest : Bytes) : read limit (encode payload ++ rest) = (.frame payload, rest) := by
  have hheader : 4 ≤ (encode payload ++ rest).length := by
    rw [List.length_append, length_encode]
    omega
  have hdrop : (encode payload ++ rest).drop 4 = payload ++ rest := by
    rw [encode, List.append_assoc]
    rfl
  obtain ⟨hpos, hfits⟩ := h
  rw [read_header limit hheader, Allowed.announced_encode ⟨hpos, hfits⟩, hdrop, if_neg (by omega),
    if_neg (by omega), if_neg (by rw [List.length_append]; omega), List.take_left, List.drop_left]

theorem read_of_fault {limit : UInt32} {stream after : Bytes} {e : ReadError}
    (h : Fault limit stream e after) : read limit stream = (.failed e, after) := by
  cases h with
  | headerTruncated hsome hshort => exact read_short limit hsome hshort
  | emptyFrame hheader hzero => rw [read_header limit hheader, if_pos hzero]
  | tooLong hheader hlong =>
    rw [read_header limit hheader, if_neg (by omega), if_pos hlong]
  | payloadTruncated hheader hpos hfits hshort =>
    rw [read_header limit hheader, if_neg (by omega), if_neg (by omega),
      if_pos (by rw [List.length_drop]; omega)]

theorem exists_attempt (limit : UInt32) (stream : Bytes) :
    ∃ next after, Attempt limit stream next after := by
  by_cases hend : stream = []
  · exact ⟨_, _, .finished hend⟩
  by_cases hfault : ∃ e after, Fault limit stream e after
  · obtain ⟨e, after, hfault⟩ := hfault
    exact ⟨_, _, .failed hfault⟩
  -- nothing is wrong: the header is followed by as many bytes as it announces
  have hheader : 4 ≤ stream.length := by
    by_contra hshort
    exact hfault ⟨_, _, .headerTruncated hend (by omega)⟩
  have hpos : 1 ≤ announced stream := by
    by_contra hzero
    exact hfault ⟨_, _, .emptyFrame hheader (by omega)⟩
  have hfits : announced stream ≤ limit.toNat := by
    by_contra hlong
    exact hfault ⟨_, _, .tooLong hheader (by omega)⟩
  have hrest : 4 + announced stream ≤ stream.length := by
    by_contra hshort
    exact hfault ⟨_, _, .payloadTruncated hheader hpos hfits (by omega)⟩
  have hlength : ((stream.drop 4).take (announced stream)).length = announced stream := by
    rw [List.length_take, List.length_drop]
    omega
  have hallowed : Allowed limit ((stream.drop 4).take (announced stream)) := by
    rw [Allowed, hlength]
    exact ⟨hpos, hfits⟩
  have hstream : stream = encode ((stream.drop 4).take (announced stream)) ++
      (stream.drop 4).drop (announced stream) := by
    rw [encode, hlength, List.append_assoc, List.take_append_drop]
    exact eq_encodeLength_append hheader
  exact ⟨_, _, .frame hallowed hstream⟩

theorem read_of_attempt {limit : UInt32} {stream after : Bytes} {next : Next}
    (h : Attempt limit stream next after) : read limit stream = (next, after) := by
  cases h with
  | finished hend =>
    subst hend
    rfl
  | frame hallowed hstream =>
    subst hstream
    exact read_encode hallowed _
  | failed hfault => exact read_of_fault hfault

theorem read_eq_iff {limit : UInt32} {stream after : Bytes} {next : Next} :
    read limit stream = (next, after) ↔ Attempt limit stream next after := by
  constructor
  · intro h
    obtain ⟨other, rest, hattempt⟩ := exists_attempt limit stream
    rw [read_of_attempt hattempt, Prod.mk.injEq] at h
    obtain ⟨rfl, rfl⟩ := h
    exact hattempt
  · exact read_of_attempt

theorem read_eq_finished {limit : UInt32} {stream : Bytes} :
    (read limit stream).1 = .finished ↔ stream = [] := by
  constructor
  · intro h
    rcases hread : read limit stream with ⟨next, after⟩
    obtain rfl : next = .finished := by rwa [hread] at h
    cases read_eq_iff.mp hread with
    | finished hend => exact hend
  · rintro rfl
    rfl

theorem read_eq_frame {limit : UInt32} {stream payload rest : Bytes}
    (h : read limit stream = (.frame payload, rest)) :
    Allowed limit payload ∧ stream = encode payload ++ rest := by
  cases read_eq_iff.mp h with
  | frame hallowed hstream => exact ⟨hallowed, hstream⟩

theorem read_eq_failed {limit : UInt32} {stream after : Bytes} {e : ReadError} :
    read limit stream = (.failed e, after) ↔ Fault limit stream e after := by
  rw [read_eq_iff]
  constructor
  · rintro (_ | _ | hfault)
    exact hfault
  · exact .failed

theorem Fault.ne_encode_append {limit : UInt32} {stream after payload : Bytes} {e : ReadError}
    (h : Fault limit stream e after) (hallowed : Allowed limit payload) (rest : Bytes) :
    stream ≠ encode payload ++ rest := by
  intro hstream
  have hread := read_of_fault h
  rw [hstream, read_encode hallowed] at hread
  cases hread

/-! ## All frames -/

/-- What reading a stream to its end comes to: the frames in turn, what came in place of one
more frame, and the stream after that. -/
structure Reading where
  frames : List Bytes
  last : Next
  rest : Bytes

def readAll (limit : UInt32) (stream : Bytes) : Reading :=
  match h : read limit stream with
  | (.frame payload, rest) =>
    have := length_lt_of_read h
    let others := readAll limit rest
    { others with frames := payload :: others.frames }
  | (last, rest) => ⟨[], last, rest⟩
termination_by stream.length

theorem readAll_of_frame {limit : UInt32} {stream payload rest : Bytes}
    (h : read limit stream = (.frame payload, rest)) :
    readAll limit stream =
      ⟨payload :: (readAll limit rest).frames, (readAll limit rest).last,
        (readAll limit rest).rest⟩ := by
  rw [readAll]
  split
  · rename_i p r hread
    obtain ⟨rfl, rfl⟩ : payload = p ∧ rest = r := by simpa [h] using hread
    rfl
  · rename_i last r hframe hread
    exact absurd (congrArg Prod.fst (hread.symm.trans h)) (hframe payload)

theorem readAll_of_no_frame {limit : UInt32} {stream rest : Bytes} {last : Next}
    (h : read limit stream = (last, rest)) (hframe : ∀ payload, last ≠ .frame payload) :
    readAll limit stream = ⟨[], last, rest⟩ := by
  rw [readAll]
  split
  · rename_i p r hread
    have hlast : last = .frame p := congrArg Prod.fst (h.symm.trans hread)
    exact absurd hlast (hframe p)
  · rename_i l r _ hread
    obtain ⟨rfl, rfl⟩ : last = l ∧ rest = r := by simpa [h] using hread
    rfl

theorem readAll_append {limit : UInt32} (frames : List Bytes)
    (h : ∀ f ∈ frames, Allowed limit f) (remaining : Bytes) :
    readAll limit (frames.flatMap encode ++ remaining) =
      ⟨frames ++ (readAll limit remaining).frames, (readAll limit remaining).last,
        (readAll limit remaining).rest⟩ := by
  induction frames with
  | nil => rfl
  | cons f frames ih =>
    have hread := read_encode (h f List.mem_cons_self) (frames.flatMap encode ++ remaining)
    rw [List.flatMap_cons, List.append_assoc, readAll_of_frame hread,
      ih fun g hg => h g (List.mem_cons_of_mem _ hg)]
    rfl

/-- A stream is the frames that are read from it and remaining bytes that the last attempt
to read has come to. -/
theorem readAll_split (limit : UInt32) (stream : Bytes) :
    (∀ f ∈ (readAll limit stream).frames, Allowed limit f) ∧
      ∃ remaining, stream = (readAll limit stream).frames.flatMap encode ++ remaining ∧
        read limit remaining = ((readAll limit stream).last, (readAll limit stream).rest) ∧
          ∀ payload, (readAll limit stream).last ≠ .frame payload := by
  fun_induction readAll limit stream with
  | case1 stream payload rest hnext hshorter others ih =>
    obtain ⟨hallowed, hstream⟩ := read_eq_frame hnext
    obtain ⟨hframes, remaining, hrest, hlast, hend⟩ := ih
    refine ⟨?_, remaining, ?_, hlast, hend⟩
    · intro f hf
      rcases List.mem_cons.mp hf with rfl | hf
      · exact hallowed
      · exact hframes f hf
    · rw [List.flatMap_cons, List.append_assoc, ← hrest]
      exact hstream
  | case2 stream last rest hend hnext =>
    exact ⟨by simp, stream, rfl, hnext, hend⟩

theorem lengthMessage_ne_empty (n : Nat) (limit : UInt32) : lengthMessage n limit ≠ "" := by
  intro h
  have hlength := congrArg String.length h
  simp only [lengthMessage, String.length_append] at hlength
  have hlead : "frame length ".length = 13 := by decide
  simp [hlead] at hlength

theorem ReadError.message_ne_empty (e : ReadError) : e.message ≠ "" := by
  cases e with
  | headerTruncated => decide
  | emptyFrame => decide
  | tooLong n limit => exact lengthMessage_ne_empty n limit
  | payloadTruncated => decide

/-- Reading a stream to its end gives complete frames of allowed length, in the order in which
they stand at its front. It ends cleanly exactly when nothing is left behind them; otherwise
the error and the place where the stream stands are those of the fault in what is left, which
does not start with a frame. A stream with a truncated frame is used up. -/
theorem readAll_exact (limit : UInt32) (stream : Bytes) :
    let r := readAll limit stream
    (∀ f ∈ r.frames, 1 ≤ f.length ∧ f.length ≤ limit.toNat ∧
      announced (encode f) = f.length ∧ (encode f).drop 4 = f) ∧
    ∃ remaining, stream = r.frames.flatMap encode ++ remaining ∧
      (r.last = .finished ↔ remaining = []) ∧
      (r.last ≠ .finished → ∃ e, r.last = .failed e ∧ e.message ≠ "" ∧
        ∀ payload rest, 1 ≤ payload.length → payload.length ≤ limit.toNat →
          remaining ≠ encode payload ++ rest) ∧
      (∀ e after, r.last = .failed e ∧ r.rest = after ↔ Fault limit remaining e after) ∧
      (r.last = .failed .headerTruncated ∨ r.last = .failed .payloadTruncated →
        read limit r.rest = (.finished, [])) := by
  intro r
  obtain ⟨hframes, remaining, hstream, hread, hend⟩ := readAll_split limit stream
  have hfault : ∀ e after, r.last = .failed e ∧ r.rest = after ↔ Fault limit remaining e after := by
    intro e after
    rw [← read_eq_failed, hread, Prod.mk.injEq]
  have hfinished : (read limit remaining).1 = .finished ↔ remaining = [] := read_eq_finished
  rw [hread] at hfinished
  refine ⟨?_, remaining, hstream, hfinished, ?_, hfault, ?_⟩
  · intro f hf
    have hallowed := hframes f hf
    have hannounced := hallowed.announced_encode []
    rw [List.append_nil] at hannounced
    exact ⟨hallowed.1, hallowed.2, hannounced, rfl⟩
  · intro hlast
    cases hr : r.last with
    | frame payload => exact absurd hr (hend payload)
    | finished => exact absurd hr hlast
    | failed e =>
      have hremaining := (hfault e r.rest).mp ⟨hr, rfl⟩
      refine ⟨e, rfl, e.message_ne_empty, ?_⟩
      intro payload rest hpos hfits
      exact hremaining.ne_encode_append ⟨hpos, hfits⟩ rest
  · intro htruncated
    have hrest : r.rest = [] := by
      rcases htruncated with hlast | hlast
      · exact ((hfault _ _).mp ⟨hlast, rfl⟩).after_eq_nil (Or.inl rfl)
      · exact ((hfault _ _).mp ⟨hlast, rfl⟩).after_eq_nil (Or.inr rfl)
    rw [hrest]
    rfl

/-- A stream that is cut off within its second payload. -/
def cutStream : Bytes := encode [7] ++ [2, 0, 0, 0, 9]

theorem readAll_cutStream :
    readAll 5 cutStream = ⟨[[7]], .failed .payloadTruncated, []⟩ ∧
      (∃ remaining, cutStream = encode [7] ++ remaining ∧
        Fault 5 remaining .payloadTruncated []) ∧
      read 5 (readAll 5 cutStream).rest = (.finished, []) := by
  have hfirst : read 5 cutStream = (.frame [7], [2, 0, 0, 0, 9]) :=
    read_encode (by decide) _
  have hsecond : read 5 [2, 0, 0, 0, 9] = (.failed .payloadTruncated, []) := by decide
  have hall : readAll 5 cutStream = ⟨[[7]], .failed .payloadTruncated, []⟩ := by
    rw [readAll_of_frame hfirst, readAll_of_no_frame hsecond (by simp)]
  obtain ⟨-, remaining, hstream, -, -, hfault, htruncated⟩ := readAll_exact 5 cutStream
  rw [hall] at hstream hfault htruncated
  refine ⟨hall, ⟨remaining, hstream, (hfault _ _).mp ⟨rfl, rfl⟩⟩, ?_⟩
  rw [hall]
  exact htruncated (Or.inr rfl)

end Underwriting.Frame
