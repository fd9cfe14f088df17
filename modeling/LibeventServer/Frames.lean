import LibeventServer.Lib.Transducer
import Mathlib.Data.List.Basic

/-!
# The frame format

A frame is a two-byte little-endian length followed by that many bytes.

`decoder` reads the format one byte at a time.  A complete body is emitted with its last byte, except that an empty
body is emitted by the byte after it.  Between headers and bodies the decoder is clean: it holds no byte.

* `feedAll_stream`: on a concatenation of frames the decoder emits the bodies, the last one excepted when it is empty.
* `clean_take_stream`: after a part of such a stream the decoder is clean exactly when the part ends at the end of a
  header or of a body (`IsCut`).
-/

namespace LibeventServer

/-- The two header bytes for a body of `n` bytes, each cut to eight bits. -/
def header (n : Nat) : List UInt8 := [UInt8.ofNat (n % 256), UInt8.ofNat (n / 256)]

/-- The frame of a body. -/
def frame (body : List UInt8) : List UInt8 := header body.length ++ body

/-- The frames of a list of bodies, one after the other. -/
def stream (bodies : List (List UInt8)) : List UInt8 := (bodies.map frame).flatten

/-- Read one frame off the front: its body and the bytes left over. -/
def readFrame : List UInt8 → Option (List UInt8 × List UInt8)
  | lo :: hi :: rest =>
    if lo.toNat + hi.toNat * 256 ≤ rest.length then
      some (rest.take (lo.toNat + hi.toNat * 256), rest.drop (lo.toNat + hi.toNat * 256))
    else none
  | _ => none

/-- The header bytes encode the length as long as it fits two bytes. -/
private theorem header_toNat {n : Nat} (hn : n < 65536) :
    (UInt8.ofNat (n % 256)).toNat + (UInt8.ofNat (n / 256)).toNat * 256 = n := by
  rw [UInt8.toNat_ofNat', UInt8.toNat_ofNat']
  omega

theorem readFrame_frame {body : List UInt8} (hn : body.length < 65536) (rest : List UInt8) :
    readFrame (frame body ++ rest) = some (body, rest) := by
  simp only [frame, header, List.cons_append, List.nil_append, readFrame]
  rw [header_toNat hn]
  simp

/-! ### The decoder -/

/-- What the decoder knows: whether it is reading a body, the length last announced, and the bytes of the unfinished
header or body. -/
@[ext] structure Parser where
  inBody : Bool
  need : Nat
  got : List UInt8
  deriving DecidableEq

namespace Parser

/-- Waiting for a first header of two bytes. -/
def start : Parser := ⟨false, 2, []⟩

/-- Holding no byte. -/
def clean (P : Parser) : Bool := P.got.isEmpty

/-- An empty body is emitted when the byte after it arrives. -/
def settle (P : Parser) : Parser × List (List UInt8) :=
  if P.inBody ∧ P.need = 0 then (⟨false, P.need, []⟩, [[]]) else (P, [])

/-- Take one byte, not being at an empty body. -/
def take (P : Parser) (b : UInt8) : Parser × List (List UInt8) :=
  if P.inBody then
    if P.got.length + 1 = P.need then (⟨false, P.need, []⟩, [P.got ++ [b]])
    else (⟨true, P.need, P.got ++ [b]⟩, [])
  else
    match P.got with
    | [] => (⟨false, P.need, [b]⟩, [])
    | lo :: _ => (⟨true, lo.toNat + b.toNat * 256, []⟩, [])

end Parser

/-- The decoder of the format. -/
def decoder : Transducer Parser UInt8 (List UInt8) where
  feed P b := ((P.settle.1.take b).1, P.settle.2 ++ (P.settle.1.take b).2)

section

open Transducer

variable {n : Nat} {l : List UInt8}

theorem feedAll_header (n : Nat) (lo hi : UInt8) (l : List UInt8) :
    decoder.feedAll ⟨false, n, []⟩ (lo :: hi :: l) = decoder.feedAll ⟨true, lo.toNat + hi.toNat * 256, []⟩ l := by
  simp [feedAll, decoder, Parser.settle, Parser.take]

theorem feedAll_halfHeader (n : Nat) (b : UInt8) :
    decoder.feedAll ⟨false, n, []⟩ [b] = (⟨false, n, [b]⟩, []) := by
  simp [feedAll, decoder, Parser.settle, Parser.take]

private theorem feedAll_body_from (got : List UInt8) (hn : got.length < n) (hl : n ≤ got.length + l.length) :
    decoder.feedAll ⟨true, n, got⟩ l =
      ((decoder.feedAll ⟨false, n, []⟩ (l.drop (n - got.length))).1,
        (got ++ l.take (n - got.length)) :: (decoder.feedAll ⟨false, n, []⟩ (l.drop (n - got.length))).2) := by
  induction l generalizing got with
  | nil => simp at hl; omega
  | cons b l ih =>
    have hne : n ≠ 0 := by omega
    obtain ⟨m, hm⟩ : ∃ m, n - got.length = m + 1 := ⟨n - got.length - 1, by omega⟩
    rw [hm]
    by_cases hlast : got.length + 1 = n
    · have : m = 0 := by omega
      subst this
      simp [feedAll, decoder, Parser.settle, Parser.take, hne, hlast]
    · have hfeed : decoder.feed ⟨true, n, got⟩ b = (⟨true, n, got ++ [b]⟩, []) := by
        simp [decoder, Parser.settle, Parser.take, hne, hlast]
      simp only [List.length_cons] at hl
      have hm' : n - (got ++ [b]).length = m := by simp; omega
      simp only [feedAll, hfeed, List.nil_append]
      rw [ih _ (by simp; omega) (by simp; omega), hm']
      simp

/-- A whole body.  An empty one counts once there is a byte after it. -/
theorem feedAll_body (hl : n ≤ l.length) (hne : l ≠ []) :
    decoder.feedAll ⟨true, n, []⟩ l =
      ((decoder.feedAll ⟨false, n, []⟩ (l.drop n)).1, l.take n :: (decoder.feedAll ⟨false, n, []⟩ (l.drop n)).2) := by
  rcases Nat.eq_zero_or_pos n with rfl | hn
  · cases l with
    | nil => exact absurd rfl hne
    | cons b l => simp [feedAll, decoder, Parser.settle]
  · rw [feedAll_body_from [] (by simpa using hn) (by simpa using hl)]
    simp

private theorem feedAll_shortBody_from {got : List UInt8} (hl : got.length + l.length < n) :
    decoder.feedAll ⟨true, n, got⟩ l = (⟨true, n, got ++ l⟩, []) := by
  induction l generalizing got with
  | nil => simp
  | cons b l ih =>
    simp only [List.length_cons] at hl
    have hfeed : decoder.feed ⟨true, n, got⟩ b = (⟨true, n, got ++ [b]⟩, []) := by
      simp [decoder, Parser.settle, Parser.take, show n ≠ 0 by omega, show got.length + 1 ≠ n by omega]
    simp only [feedAll, hfeed, List.nil_append]
    rw [ih (by simp; omega)]
    simp

theorem feedAll_shortBody (hl : l.length < n) :
    decoder.feedAll ⟨true, n, []⟩ l = (⟨true, n, l⟩, []) := by
  rw [feedAll_shortBody_from (by simpa using hl)]
  simp

/-! ### Concatenations of frames -/

@[simp] theorem stream_nil : stream [] = [] := rfl

theorem stream_cons (b : List UInt8) (bodies : List (List UInt8)) : stream (b :: bodies) =
    UInt8.ofNat (b.length % 256) :: UInt8.ofNat (b.length / 256) :: (b ++ stream bodies) := by
  simp [stream, frame, header]

private theorem stream_ne_nil {bodies : List (List UInt8)} (h : bodies ≠ []) : stream bodies ≠ [] := by
  cases bodies with
  | nil => exact absurd rfl h
  | cons b bodies => simp [stream_cons]

theorem feedAll_frame {b : List UInt8} (hb : b.length < 65536) (l : List UInt8) :
    decoder.feedAll ⟨false, n, []⟩ (UInt8.ofNat (b.length % 256) :: UInt8.ofNat (b.length / 256) :: l) =
      decoder.feedAll ⟨true, b.length, []⟩ l := by
  rw [feedAll_header, header_toNat hb]

/-- On a concatenation of frames the decoder emits the bodies and waits for a header; a last empty body it has not
emitted yet. -/
theorem feedAll_stream {bodies : List (List UInt8)} (hb : ∀ b ∈ bodies, b.length < 65536) (n : Nat) :
    decoder.feedAll ⟨false, n, []⟩ (stream bodies) =
      if bodies.getLast? = some [] then (⟨true, 0, []⟩, bodies.dropLast)
      else (⟨false, (bodies.getLast?.map List.length).getD n, []⟩, bodies) := by
  induction bodies generalizing n with
  | nil => simp
  | cons b bodies ih =>
    rw [stream_cons, feedAll_frame (hb b (by simp))]
    by_cases hlast : bodies = [] ∧ b = []
    · obtain ⟨rfl, rfl⟩ := hlast
      simp
    · have hne : b ++ stream bodies ≠ [] := by
        intro h
        rw [List.append_eq_nil_iff] at h
        by_cases hbs : bodies = []
        · exact hlast ⟨hbs, h.1⟩
        · exact stream_ne_nil hbs h.2
      rw [feedAll_body (by simp) hne, List.drop_left, List.take_left, ih (fun c hc => hb c (by simp [hc]))]
      cases bodies with
      | nil => simp_all
      | cons c bodies =>
        rw [List.getLast?_cons_cons]
        split
        · simp
        · obtain ⟨d, hd⟩ : ∃ d, (c :: bodies).getLast? = some d := ⟨_, List.getLast?_eq_some_getLast (by simp)⟩
          simp [hd]

/-- Position `k` of the frames of `bodies` is the start of a frame, the end of a header or the end of the last body.
-/
def IsCut : List (List UInt8) → Nat → Prop
  | [], k => k = 0
  | b :: bodies, k => k = 0 ∨ k = 2 ∨ 2 + b.length ≤ k ∧ IsCut bodies (k - (2 + b.length))

instance decidableIsCut : ∀ bodies k, Decidable (IsCut bodies k)
  | [], k => inferInstanceAs (Decidable (k = 0))
  | b :: bodies, k =>
    have := decidableIsCut bodies (k - (2 + b.length))
    inferInstanceAs (Decidable (k = 0 ∨ k = 2 ∨ 2 + b.length ≤ k ∧ IsCut bodies (k - (2 + b.length))))

/-- After a part of a concatenation of frames the decoder is clean exactly when the part ends at a cut. -/
theorem clean_take_stream {bodies : List (List UInt8)} (hb : ∀ b ∈ bodies, b.length < 65536) (n : Nat) {k : Nat}
    (hk : k ≤ (stream bodies).length) :
    (decoder.feedAll ⟨false, n, []⟩ ((stream bodies).take k)).1.clean = true ↔ IsCut bodies k := by
  induction bodies generalizing n k with
  | nil =>
    have : k = 0 := by simpa using hk
    simp [this, IsCut, Parser.clean]
  | cons b bodies ih =>
    rw [stream_cons] at hk ⊢
    simp only [List.length_cons, List.length_append] at hk
    match k with
    | 0 => simp [IsCut, Parser.clean]
    | 1 =>
      have hcut : ¬ IsCut (b :: bodies) 1 := by simp only [IsCut]; omega
      simp only [List.take_succ_cons, List.take_zero, feedAll_halfHeader, hcut]
      simp [Parser.clean]
    | j + 2 =>
      simp only [List.take_succ_cons]
      rw [feedAll_frame (hb b (by simp))]
      rcases Nat.eq_zero_or_pos j with rfl | hj
      · simp [IsCut, Parser.clean]
      have hlen : ((b ++ stream bodies).take j).length = j := by simp; omega
      have hne : (b ++ stream bodies).take j ≠ [] := List.ne_nil_of_length_pos (by omega)
      by_cases hjb : j < b.length
      · -- inside the body
        have hcut : ¬ IsCut (b :: bodies) (j + 2) := by simp only [IsCut]; omega
        rw [feedAll_shortBody (by omega)]
        simp [hcut, Parser.clean, hne]
      · -- the body is complete, and the rest is a part of the remaining frames
        rw [feedAll_body (by omega) hne, List.drop_take, List.drop_left,
          ih (fun c hc => hb c (by simp [hc])) _ (by omega)]
        have hsub : j + 2 - (2 + b.length) = j - b.length := by omega
        simp only [IsCut, hsub]
        constructor
        · intro h
          exact Or.inr (Or.inr ⟨by omega, h⟩)
        · rintro (h | h | h)
          · omega
          · omega
          · exact h.2

/-- A chunked run over a concatenation of frames is not given up exactly when every chunk ends at a cut. -/
theorem clean_chunks_iff {bodies chunks : List (List UInt8)} (hb : ∀ b ∈ bodies, b.length < 65536)
    (hc : chunks.flatten = stream bodies) (n : Nat) :
    (∀ i, (decoder.feedAll ⟨false, n, []⟩ (chunks.take i).flatten).1.clean = true) ↔
      ∀ i, IsCut bodies (chunks.take i).flatten.length := by
  refine forall_congr' fun i => ?_
  have hpre : (chunks.take i).flatten ++ (chunks.drop i).flatten = stream bodies := by
    rw [← List.flatten_append, List.take_append_drop, hc]
  have htake : (chunks.take i).flatten = (stream bodies).take (chunks.take i).flatten.length := by
    rw [← hpre, List.take_left]
  have hle : (chunks.take i).flatten.length ≤ (stream bodies).length := by
    rw [← hpre, List.length_append]
    omega
  conv => lhs; rw [htake]
  exact clean_take_stream hb n hle

end

end LibeventServer
