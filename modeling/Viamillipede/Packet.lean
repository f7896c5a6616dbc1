import Viamillipede.Bytes
import Viamillipede.PrefixCode
import Mathlib.Tactic.IntervalCases

/-! The bearer channel header of `cfg.h`, its bytes on a connection, and packets.

A packet is a header together with the payload it announces. Packets form a
prefix code, which is what lets a receiver find their boundaries again. -/
namespace Viamillipede

open Bytes

/-- Bytes of user payload in one leg. -/
def kfootsize : ℕ := 2048*1024

/-- What one leg can carry: the bytes of at most one buffer. -/
abbrev Payload := {bs : List UInt8 // bs.length ≤ kfootsize}

/-- The static limit on workers, on either side. -/
def kthreadmax : ℕ := 16

/-- The largest single read, as `util.h` polyfills it. -/
def maxbsize : ℕ := 16384

def preambleCannonUl : UInt64 := 0xa5a5a5a55a5a5a5a

def feedMore : UInt64 := 0xcafe

def endOfMillipede : UInt64 := 0xdead

/-- `struct millipacket_s`, in the order of its fields. -/
structure Millipacket where
  preamble : UInt64
  legId : UInt64
  size : UInt64
  checksum : UInt64
  opcode : UInt64
  deriving DecidableEq, Repr

namespace Millipacket

/-- `sizeof(struct millipacket_s)`: five words and no padding. -/
def sizeof : ℕ := 40

/-- The bytes of the header in memory. -/
def bytes (p : Millipacket) : List UInt8 :=
  wordBytes p.preamble ++ wordBytes p.legId ++ wordBytes p.size ++ wordBytes p.checksum ++
    wordBytes p.opcode

/-- The header that a string of forty bytes in memory is. -/
def ofBytes (bs : List UInt8) : Millipacket where
  preamble := wordOf (bs.take 8)
  legId := wordOf ((bs.drop 8).take 8)
  size := wordOf ((bs.drop 16).take 8)
  checksum := wordOf ((bs.drop 24).take 8)
  opcode := wordOf ((bs.drop 32).take 8)

@[simp] theorem bytes_length (p : Millipacket) : p.bytes.length = sizeof := by
  simp [bytes,sizeof]

theorem bytes_ne_nil (p : Millipacket) : p.bytes ≠ [] :=
  List.ne_nil_of_length_pos (by simp [sizeof])

@[simp] theorem ofBytes_bytes (p : Millipacket) : ofBytes p.bytes = p := by
  simp [ofBytes,bytes,List.drop_append,List.drop_eq_nil_of_le,
    List.take_of_length_le]

/-- Every string of forty bytes is a header. -/
theorem bytes_ofBytes {bs : List UInt8} (h : bs.length = sizeof) : (ofBytes bs).bytes = bs := by
  have h8 (k : ℕ) (hk : k+8 ≤ 40) : wordBytes (wordOf ((bs.drop k).take 8)) = (bs.drop k).take 8 :=
    wordBytes_wordOf (by simp [h,sizeof]; omega)
  have h0 := h8 0 (by omega)
  rw [List.drop_zero] at h0
  have h32 : wordBytes (wordOf ((bs.drop 32).take 8)) = bs.drop 32 :=
    (h8 32 (by omega)).trans (List.take_of_length_le (by simp [h,sizeof]))
  have hsplit (k : ℕ) : (bs.drop k).take 8 ++ bs.drop (k+8) = bs.drop k := by
    rw [← List.drop_drop,List.take_append_drop]
  calc (ofBytes bs).bytes
    _ = bs.take 8 ++ ((bs.drop 8).take 8 ++ ((bs.drop 16).take 8 ++
        ((bs.drop 24).take 8 ++ bs.drop 32))) := by
      simp only [bytes,ofBytes,h0,h8 8 (by omega),h8 16 (by omega),h8 24 (by omega),h32,
        List.append_assoc]
    _ = bs := by rw [hsplit 24,hsplit 16,hsplit 8,List.take_append_drop]

/-- A header is determined by its bytes. -/
theorem bytes_injective : Function.Injective bytes := fun p q h => by
  simpa using congrArg ofBytes h

/-- What `pkt` holds after a `readv` that stored `bs` at its start. -/
def overlay (slot : Millipacket) (bs : List UInt8) : Millipacket :=
  ofBytes (bs ++ slot.bytes.drop bs.length)

/-- A read of all forty bytes leaves nothing of the old contents. -/
theorem overlay_whole (slot : Millipacket) {bs : List UInt8} (h : bs.length = sizeof) :
    slot.overlay bs = ofBytes bs := by
  have hd : slot.bytes.drop bs.length = [] := List.drop_eq_nil_of_le (by simp [h])
  rw [overlay,hd,List.append_nil]

@[simp] theorem overlay_bytes (slot p : Millipacket) : slot.overlay p.bytes = p := by
  rw [overlay_whole slot (bytes_length p),ofBytes_bytes]

end Millipacket

/-- A header and exactly the payload it announces. -/
structure Packet where
  header : Millipacket
  payload : List UInt8
  size_eq : payload.length = header.size.toNat
  deriving DecidableEq

namespace Packet

theorem ext {p q : Packet} (hh : p.header = q.header) (hp : p.payload = q.payload) : p = q := by
  cases p; cases q; cases hh; cases hp; rfl

/-- The bytes `txpush` gathers for one packet. -/
def frame (p : Packet) : List UInt8 := p.header.bytes ++ p.payload

@[simp] theorem frame_length (p : Packet) :
    p.frame.length = Millipacket.sizeof+p.payload.length := by simp [frame]

theorem frame_ne_nil (p : Packet) : p.frame ≠ [] := by
  simp [frame,Millipacket.bytes_ne_nil]

theorem frame_prefix_free (p q : Packet) (s t : List UInt8) (h : p.frame ++ s = q.frame ++ t) :
    p = q := by
  simp only [frame,List.append_assoc] at h
  obtain ⟨hb,hrest⟩ := List.append_inj h (by simp)
  have hheader := Millipacket.bytes_injective hb
  have hlen : p.payload.length = q.payload.length := by rw [p.size_eq,q.size_eq,hheader]
  exact ext hheader (List.append_inj_left hrest hlen)

/-- The packets written to one connection form a prefix code. -/
def code : PrefixCode.Code Packet UInt8 where
  word := frame
  word_ne_nil := frame_ne_nil
  prefix_free := frame_prefix_free

@[simp] theorem code_word (p : Packet) : code.word p = p.frame := rfl

end Packet

end Viamillipede
