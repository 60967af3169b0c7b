import Mathlib.Tactic.Common
import Underwriting.CommandLine
import Underwriting.Proofs.Frame.RoundTrip
import Underwriting.Proofs.Service.Responses

/-! # The request loop

Requests are answered one at a time, and each is answered before the next is read. So the input
is a run of frames that are answered and a rest at which the loop stops, and the output is the
answers in the order of the frames. Why the loop stops is told by that rest alone.
-/
namespace Underwriting.CommandLine
open Underwriting.Frame

structure Exchange where
  request : Bytes
  response : Bytes

section
variable (libs : Libraries) (p : Provider)

/-- A payload that can be decoded, and the response to it as it is encoded. -/
def Answers (payload response : Bytes) : Prop :=
  ∃ request, libs.codec.decode payload = some request ∧
    libs.codec.encode (p.dispatch libs.json request) = some response

structure Exchange.Valid (e : Exchange) : Prop where
  readable : Allowed maxPayload e.request
  answers : Answers libs p e.request e.response
  writable : Allowed maxPayload e.response

/-- Why the bytes that remain do not start with an exchange, and the exit code for it. -/
inductive Stop (remaining : Bytes) : UInt32 → Prop where
  | finished (hend : remaining = []) : Stop remaining 0
  | unreadable {e : ReadError} {after : Bytes} (hfault : Frame.Fault maxPayload remaining e after) :
    Stop remaining 2
  | undecodable {payload rest : Bytes} (hreadable : Allowed maxPayload payload)
      (hremaining : remaining = encode payload ++ rest)
      (hdecode : libs.codec.decode payload = none) : Stop remaining 3
  | unencodable {payload rest : Bytes} {request : Request}
      (hreadable : Allowed maxPayload payload) (hremaining : remaining = encode payload ++ rest)
      (hdecode : libs.codec.decode payload = some request)
      (hencode : libs.codec.encode (p.dispatch libs.json request) = none) : Stop remaining 4
  | unwritable {payload rest response : Bytes} (hreadable : Allowed maxPayload payload)
      (hremaining : remaining = encode payload ++ rest)
      (hanswers : Answers libs p payload response)
      (hwritable : ¬ Allowed maxPayload response) : Stop remaining 5

end

variable {libs : Libraries} {p : Provider}

/-! ## One frame -/

theorem serve_of_frame {stream payload rest : Bytes}
    (h : read maxPayload stream = (.frame payload, rest)) (out : Output) :
    serve libs p stream out =
      match libs.codec.decode payload with
      | none => ⟨3, ["failed to parse Request protobuf"], out.written⟩
      | some request =>
        match libs.codec.encode (p.dispatch libs.json request) with
        | none => ⟨4, ["failed to serialize Response protobuf"], out.written⟩
        | some bytes =>
          match write maxPayload out bytes with
          | (some e, out) => ⟨5, ["write_frame error: " ++ e.message], out.written⟩
          | (none, out) => serve libs p rest out := by
  rw [serve]
  split
  · rename_i hread
    cases h.symm.trans hread
  · rename_i hread
    cases h.symm.trans hread
  · rename_i hread
    obtain ⟨⟨⟩, rfl⟩ := Prod.mk.inj (h.symm.trans hread)
    rfl

theorem serve_of_exchange {e : Exchange} (h : e.Valid libs p) (rest written : Bytes) :
    serve libs p (encode e.request ++ rest) ⟨written, true⟩ =
      serve libs p rest ⟨written ++ encode e.response, true⟩ := by
  obtain ⟨request, hdecode, hencode⟩ := h.answers
  rw [serve_of_frame (read_encode h.readable rest)]
  simp only [hdecode, hencode, write_of_allowed h.writable]

/-- Where the loop stops, it writes nothing more. -/
theorem serve_of_stop {remaining : Bytes} {code : UInt32} (h : Stop libs p remaining code)
    (out : Output) :
    (serve libs p remaining out).exitCode = code ∧
      (serve libs p remaining out).output = out.written := by
  cases h with
  | finished hend =>
    subst hend
    rw [serve]
    exact ⟨rfl, rfl⟩
  | unreadable hfault =>
    rw [serve, read_of_fault hfault]
    exact ⟨rfl, rfl⟩
  | undecodable hreadable hremaining hdecode =>
    subst hremaining
    rw [serve_of_frame (read_encode hreadable _)]
    simp only [hdecode, and_self]
  | unencodable hreadable hremaining hdecode hencode =>
    subst hremaining
    rw [serve_of_frame (read_encode hreadable _)]
    simp only [hdecode, hencode, and_self]
  | unwritable hreadable hremaining hanswers hwritable =>
    subst hremaining
    obtain ⟨request, hdecode, hencode⟩ := hanswers
    obtain ⟨e, hwrite⟩ := write_of_not_allowed hwritable out
    rw [serve_of_frame (read_encode hreadable _)]
    simp only [hdecode, hencode, hwrite, and_self]

theorem exists_exchange_or_stop (libs : Libraries) (p : Provider) (stream : Bytes) :
    (∃ e rest, Exchange.Valid libs p e ∧ stream = encode e.request ++ rest) ∨
      ∃ code, Stop libs p stream code := by
  obtain ⟨next, after, hattempt⟩ := exists_attempt maxPayload stream
  cases hattempt with
  | finished hend => exact .inr ⟨0, .finished hend⟩
  | failed hfault => exact .inr ⟨2, .unreadable hfault⟩
  | frame hreadable hstream =>
    rename_i payload
    cases hdecode : libs.codec.decode payload with
    | none => exact .inr ⟨3, .undecodable hreadable hstream hdecode⟩
    | some request =>
      cases hencode : libs.codec.encode (p.dispatch libs.json request) with
      | none => exact .inr ⟨4, .unencodable hreadable hstream hdecode hencode⟩
      | some response =>
        have hanswers : Answers libs p payload response := ⟨request, hdecode, hencode⟩
        by_cases hwritable : Allowed maxPayload response
        · exact .inl ⟨⟨payload, response⟩, after, ⟨hreadable, hanswers, hwritable⟩, hstream⟩
        · exact .inr ⟨5, .unwritable hreadable hstream hanswers hwritable⟩

/-! ## A run of the loop -/

theorem exists_exchanges (libs : Libraries) (p : Provider) (stream : Bytes) :
    ∃ (exchanges : List Exchange) (remaining : Bytes) (code : UInt32),
      (∀ e ∈ exchanges, e.Valid libs p) ∧
        stream = exchanges.flatMap (fun e => encode e.request) ++ remaining ∧
          Stop libs p remaining code := by
  induction hlength : stream.length using Nat.strongRecOn generalizing stream with
  | ind n ih =>
    rcases exists_exchange_or_stop libs p stream with ⟨e, rest, he, rfl⟩ | ⟨code, hstop⟩
    · -- an exchange takes at least a header off the stream
      have hshorter : rest.length < n := by
        rw [← hlength, List.length_append, length_encode]
        omega
      obtain ⟨exchanges, remaining, code, hvalid, rfl, hstop⟩ := ih _ hshorter rest rfl
      refine ⟨e :: exchanges, remaining, code, List.forall_mem_cons.mpr ⟨he, hvalid⟩, ?_, hstop⟩
      rw [List.flatMap_cons, List.append_assoc]
    · exact ⟨[], stream, code, List.forall_mem_nil _, rfl, hstop⟩

theorem serve_of_exchanges {exchanges : List Exchange} (h : ∀ e ∈ exchanges, e.Valid libs p)
    (remaining written : Bytes) :
    serve libs p (exchanges.flatMap (fun e => encode e.request) ++ remaining) ⟨written, true⟩ =
      serve libs p remaining
        ⟨written ++ exchanges.flatMap (fun e => encode e.response), true⟩ := by
  induction exchanges generalizing written with
  | nil => simp
  | cons e exchanges ih =>
    obtain ⟨he, hvalid⟩ := List.forall_mem_cons.mp h
    rw [List.flatMap_cons, List.append_assoc, serve_of_exchange he, ih hvalid, List.flatMap_cons,
      List.append_assoc]

/-- The input is split into exchanges and a rest at which the loop stops; the output is the
frames of the responses, in order, and the exit code is the one for the rest. -/
theorem serve_exchanges (libs : Libraries) (p : Provider) (stream : Bytes) :
    let run := serve libs p stream ⟨[], true⟩
    ∃ (exchanges : List Exchange) (remaining : Bytes), (∀ e ∈ exchanges, e.Valid libs p) ∧
      stream = exchanges.flatMap (fun e => encode e.request) ++ remaining ∧
      run.output = exchanges.flatMap (fun e => encode e.response) ∧
      Stop libs p remaining run.exitCode := by
  obtain ⟨exchanges, remaining, code, hvalid, rfl, hstop⟩ := exists_exchanges libs p stream
  refine ⟨exchanges, remaining, hvalid, rfl, ?_⟩
  rw [serve_of_exchanges hvalid]
  obtain ⟨hcode, houtput⟩ := serve_of_stop hstop
    ⟨[] ++ exchanges.flatMap (fun e => encode e.response), true⟩
  exact ⟨houtput, hcode.symm ▸ hstop⟩

/-- Seen from outside, each frame of the output is the response that settles the frame of the
input in its place, and the output ends behind a frame. A run that exits with zero has read
all its input and answered every frame in it. -/
theorem serve_in_order (libs : Libraries) (p : Provider) (stream : Bytes) :
    let run := serve libs p stream ⟨[], true⟩
    let requests := readAll maxPayload stream
    let responses := readAll maxPayload run.output
    List.Forall₂
        (fun payload bytes => ∃ request response, libs.codec.decode payload = some request ∧
          Provider.Settles request response ∧ libs.codec.encode response = some bytes)
        (requests.frames.take responses.frames.length) responses.frames ∧
      responses.frames.length ≤ requests.frames.length ∧
      responses.last = .finished ∧
      (run.exitCode = 0 → requests.last = .finished ∧
        responses.frames.length = requests.frames.length) := by
  intro run requests responses
  obtain ⟨exchanges, remaining, hvalid, hstream, houtput, hstop⟩ := serve_exchanges libs p stream
  have hrequests : requests =
      ⟨exchanges.map Exchange.request ++ (readAll maxPayload remaining).frames,
        (readAll maxPayload remaining).last, (readAll maxPayload remaining).rest⟩ := by
    have hread := readAll_append (exchanges.map Exchange.request)
      (by simpa using fun e he => (hvalid e he).readable) remaining
    rwa [List.flatMap_map, ← hstream] at hread
  have hend : readAll maxPayload [] = ⟨[], .finished, []⟩ := readAll_of_no_frame rfl nofun
  have hresponses : responses = ⟨exchanges.map Exchange.response, .finished, []⟩ := by
    have hread := readAll_append (exchanges.map Exchange.response)
      (by simpa using fun e he => (hvalid e he).writable) []
    rwa [List.flatMap_map, List.append_nil, ← houtput, hend, List.append_nil] at hread
  have htake : requests.frames.take responses.frames.length = exchanges.map Exchange.request := by
    rw [hrequests, hresponses]
    simp
  refine ⟨?_, ?_, by rw [hresponses], ?_⟩
  · rw [htake, hresponses, List.forall₂_map_left_iff, List.forall₂_map_right_iff,
      List.forall₂_same]
    intro e he
    obtain ⟨request, hdecode, hencode⟩ := (hvalid e he).answers
    exact ⟨request, _, hdecode, Provider.settles_dispatch libs.json p request, hencode⟩
  · rw [hrequests, hresponses]
    simp
  · intro hzero
    obtain rfl : remaining = [] := by
      rw [show run.exitCode = 0 from hzero] at hstop
      cases hstop
      assumption
    rw [hrequests, hresponses, hend]
    simp

end Underwriting.CommandLine
