import Mathlib.Data.List.Basic

/-! The CSP1 stroke packet decoder (SketchCore/Codec.lean). Byte arrays are
lists, an out-of-range read gives zero as `b[i]!` does, and a sample keeps the bit
patterns of its four 32-bit floats. -/
namespace WarpLoop.Sketch

abbrev Bytes := List UInt8

def CSP1_MAGIC : UInt32 := 0x31505343
def CSP1_HEADER_BYTES : Nat := 18
def CSP1_SAMPLE_BYTES : Nat := 16

structure Sample where
  x : UInt32
  y : UInt32
  z : UInt32
  pressure : UInt32
deriving DecidableEq, Repr

structure StrokePacket where
  peerId : UInt32
  strokeId : UInt32
  seq : UInt16
  closed : Bool
  samples : List Sample
deriving DecidableEq, Repr

def readU16LE (b : Bytes) (off : Nat) : UInt16 :=
  (b.getD off 0).toUInt16 ||| ((b.getD (off+1) 0).toUInt16 <<< 8)

def readU32LE (b : Bytes) (off : Nat) : UInt32 :=
  (b.getD off 0).toUInt32 ||| ((b.getD (off+1) 0).toUInt32 <<< 8)
    ||| ((b.getD (off+2) 0).toUInt32 <<< 16) ||| ((b.getD (off+3) 0).toUInt32 <<< 24)

def readSample (b : Bytes) (off : Nat) : Sample :=
  ⟨readU32LE b off,readU32LE b (off+4),readU32LE b (off+8),readU32LE b (off+12)⟩

def StrokePacket.decode (b : Bytes) : Option StrokePacket :=
  if b.length < CSP1_HEADER_BYTES then none
  else if readU32LE b 0 ≠ CSP1_MAGIC then none
  else
    let sampleCount := (readU16LE b 14).toNat
    if b.length ≠ CSP1_HEADER_BYTES + sampleCount * CSP1_SAMPLE_BYTES then none
    else
      let closedByte := b.getD 16 0
      if closedByte ≠ 0 ∧ closedByte ≠ 1 then none
      else if b.getD 17 0 ≠ 0 then none
      else some {
        peerId := readU32LE b 4
        strokeId := readU32LE b 8
        seq := readU16LE b 12
        closed := closedByte == 1
        samples := (List.range sampleCount).map fun i => readSample b (CSP1_HEADER_BYTES + i * CSP1_SAMPLE_BYTES)}

end WarpLoop.Sketch
