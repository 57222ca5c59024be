import WarpLoop.Lib.Floats
import WarpLoop.Lib.LittleEndian
import WarpLoop.Sketch.Codec
import WarpLoop.Sketch.Fit

/-! The CSP1 stroke packet encoder (SketchCore/Codec.lean) against its decoder. A sample's
numbers are doubles, which the encoder rounds to 32 bits. A packet that was decoded holds
doubles that come from 32-bit floats; the way there and back is exact, and what is left of it
is that toBits writes every NaN the same way. -/
namespace WarpLoop.Sketch
open Lib.LittleEndian

def pushU16LE (b : Bytes) (v : UInt16) : Bytes :=
  b ++ [v.toUInt8] ++ [(v >>> 8).toUInt8]

def pushU32LE (b : Bytes) (v : UInt32) : Bytes :=
  b ++ [v.toUInt8] ++ [(v >>> 8).toUInt8] ++ [(v >>> 16).toUInt8] ++ [(v >>> 24).toUInt8]

def pushF32LE (b : Bytes) (v : Float) : Bytes := pushU32LE b v.toFloat32.toBits

/-- A sample with its numbers as they are before they are written and after they are read. -/
structure DoubleSample where
  pos : Vec3
  pressure : Float

structure DoublePacket where
  peerId : UInt32
  strokeId : UInt32
  seq : UInt16
  closed : Bool
  samples : List DoubleSample

def DoublePacket.encode (p : DoublePacket) : Bytes :=
  let b := pushU32LE [] CSP1_MAGIC
  let b := pushU32LE b p.peerId
  let b := pushU32LE b p.strokeId
  let b := pushU16LE b p.seq
  let b := pushU16LE b p.samples.length.toUInt16
  let b := b ++ [if p.closed then 1 else 0]
  let b := b ++ [0]
  p.samples.foldl (fun b s => pushF32LE (pushF32LE (pushF32LE (pushF32LE b s.pos.x) s.pos.y) s.pos.z) s.pressure) b

/-- The double that is read for a word. -/
def widen (word : UInt32) : Float := (Float32.ofBits word).toFloat

def Sample.doubles (s : Sample) : DoubleSample := ⟨⟨widen s.x,widen s.y,widen s.z⟩,widen s.pressure⟩

def StrokePacket.doubles (p : StrokePacket) : DoublePacket :=
  ⟨p.peerId,p.strokeId,p.seq,p.closed,p.samples.map Sample.doubles⟩

/-- The decoder with the doubles that it makes of the words. -/
def DoublePacket.decode (b : Bytes) : Option DoublePacket := (StrokePacket.decode b).map StrokePacket.doubles

/-- What is written for a word that was read, as a double that is rounded back. -/
def pushWordLE (b : Bytes) (word : UInt32) : Bytes := pushU32LE b (Float32.ofBits word).toBits

/-- The encoder on a packet that was decoded. -/
def StrokePacket.encode (p : StrokePacket) : Bytes :=
  let b := pushU32LE [] CSP1_MAGIC
  let b := pushU32LE b p.peerId
  let b := pushU32LE b p.strokeId
  let b := pushU16LE b p.seq
  let b := pushU16LE b p.samples.length.toUInt16
  let b := b ++ [if p.closed then 1 else 0]
  let b := b ++ [0]
  p.samples.foldl (fun b s => pushWordLE (pushWordLE (pushWordLE (pushWordLE b s.x) s.y) s.z) s.pressure) b

/-! The words of a packet, without the doubles. -/

def Sample.wire (s : Sample) : Bytes := bytes 4 s.x.toNat ++ bytes 4 s.y.toNat ++ bytes 4 s.z.toNat ++ bytes 4 s.pressure.toNat

def StrokePacket.header (p : StrokePacket) : Bytes :=
  bytes 4 CSP1_MAGIC.toNat ++ bytes 4 p.peerId.toNat ++ bytes 4 p.strokeId.toNat ++ bytes 2 p.seq.toNat ++
    bytes 2 p.samples.length.toUInt16.toNat ++ [if p.closed then 1 else 0] ++ [0]

def StrokePacket.wire (p : StrokePacket) : Bytes := p.header ++ p.samples.flatMap Sample.wire

def Sample.mapWords (f : UInt32 → UInt32) (s : Sample) : Sample := ⟨f s.x,f s.y,f s.z,f s.pressure⟩

/-- The words that are written for a packet. -/
def DoubleSample.words (s : DoubleSample) : Sample :=
  ⟨s.pos.x.toFloat32.toBits,s.pos.y.toFloat32.toBits,s.pos.z.toFloat32.toBits,s.pressure.toFloat32.toBits⟩

def DoublePacket.words (p : DoublePacket) : StrokePacket :=
  ⟨p.peerId,p.strokeId,p.seq,p.closed,p.samples.map DoubleSample.words⟩

/-- The packet with every number rounded to 32 bits. -/
def DoubleSample.rounded (s : DoubleSample) : DoubleSample :=
  ⟨⟨s.pos.x.toFloat32.toFloat,s.pos.y.toFloat32.toFloat,s.pos.z.toFloat32.toFloat⟩,s.pressure.toFloat32.toFloat⟩

def DoublePacket.rounded (p : DoublePacket) : DoublePacket := {p with samples := p.samples.map DoubleSample.rounded}

/-- The packet as it is after its numbers went through doubles. -/
def StrokePacket.written (p : StrokePacket) : StrokePacket :=
  {p with samples := p.samples.map (Sample.mapWords (fun word => (Float32.ofBits word).toBits))}

theorem pushU16LE_eq (b : Bytes) (v : UInt16) : pushU16LE b v = b ++ bytes 2 v.toNat := by
  rw [← bytes16,pushU16LE,List.append_assoc]
  rfl

theorem pushU32LE_eq (b : Bytes) (v : UInt32) : pushU32LE b v = b ++ bytes 4 v.toNat := by
  rw [← bytes32,pushU32LE,List.append_assoc,List.append_assoc,List.append_assoc]
  rfl

theorem pushSamples_eq {α : Type} (words : α → Sample) (samples : List α) (b : Bytes) :
    samples.foldl (fun b s => pushU32LE (pushU32LE (pushU32LE (pushU32LE b (words s).x) (words s).y) (words s).z)
      (words s).pressure) b = b ++ (samples.map words).flatMap Sample.wire := by
  induction samples generalizing b with
  | nil => simp
  | cons s rest ih =>
    rw [List.foldl_cons,ih]
    simp [pushU32LE_eq,Sample.wire]

theorem DoublePacket.encode_eq (p : DoublePacket) : p.encode = p.words.wire := by
  refine (pushSamples_eq DoubleSample.words p.samples _).trans ?_
  simp [pushU32LE_eq,pushU16LE_eq,StrokePacket.wire,StrokePacket.header,DoublePacket.words]
  rfl

theorem encode_eq (p : StrokePacket) : p.encode = p.written.wire := by
  refine (pushSamples_eq (Sample.mapWords (fun word => (Float32.ofBits word).toBits)) p.samples _).trans ?_
  simp [pushU32LE_eq,pushU16LE_eq,StrokePacket.wire,StrokePacket.header,StrokePacket.written]
  rfl

/-! What the decoder reads stands in the bytes. -/

section Reads
variable {b : Bytes} {off : Nat}

theorem drop_byte (inside : off < b.length) : b.drop off = b.getD off 0 :: b.drop (off + 1) := by
  rw [List.drop_eq_getElem_cons inside]
  simp [inside]

theorem drop_u16 (inside : off + 2 ≤ b.length) : b.drop off = bytes 2 (readU16LE b off).toNat ++ b.drop (off + 2) := by
  have read : (readU16LE b off).toNat = value [b.getD off 0,b.getD (off + 1) 0] := word16 _ _
  rw [read,drop_byte (show off < b.length by omega),drop_byte (show off + 1 < b.length by omega)]
  exact congrArg (· ++ _) (bytes_value [b.getD off 0,b.getD (off + 1) 0]).symm

theorem drop_u32 (inside : off + 4 ≤ b.length) : b.drop off = bytes 4 (readU32LE b off).toNat ++ b.drop (off + 4) := by
  have read : (readU32LE b off).toNat = value [b.getD off 0,b.getD (off + 1) 0,b.getD (off + 2) 0,b.getD (off + 3) 0] :=
    word32 _ _ _ _
  rw [read,drop_byte (show off < b.length by omega),drop_byte (show off + 1 < b.length by omega),
    drop_byte (show off + 2 < b.length by omega),drop_byte (show off + 3 < b.length by omega)]
  exact congrArg (· ++ _) (bytes_value [b.getD off 0,b.getD (off + 1) 0,b.getD (off + 2) 0,b.getD (off + 3) 0]).symm

theorem readU16LE_eq {v : UInt16} {rest : Bytes} (here : b.drop off = bytes 2 v.toNat ++ rest) : readU16LE b off = v := by
  have inside : off + 2 ≤ b.length := by
    have size := congrArg List.length here
    rw [List.length_drop,List.length_append,bytes_length] at size
    omega
  rw [drop_u16 inside] at here
  have same := List.append_inj_left here (by rw [bytes_length,bytes_length])
  exact UInt16.toNat.inj (bytes_inj (readU16LE b off).toNat_lt v.toNat_lt same)

theorem readU32LE_eq {v : UInt32} {rest : Bytes} (here : b.drop off = bytes 4 v.toNat ++ rest) : readU32LE b off = v := by
  have inside : off + 4 ≤ b.length := by
    have size := congrArg List.length here
    rw [List.length_drop,List.length_append,bytes_length] at size
    omega
  rw [drop_u32 inside] at here
  have same := List.append_inj_left here (by rw [bytes_length,bytes_length])
  exact UInt32.toNat.inj (bytes_inj (readU32LE b off).toNat_lt v.toNat_lt same)

theorem getD_eq {byte : UInt8} {rest : Bytes} (here : b.drop off = byte :: rest) : b.getD off 0 = byte := by
  have inside : off < b.length := by
    by_contra past
    rw [List.drop_eq_nil_of_le (Nat.not_lt.mp past)] at here
    exact List.cons_ne_nil _ _ here.symm
  rw [drop_byte inside] at here
  exact (List.cons.inj here).1

theorem drop_sample (inside : off + 16 ≤ b.length) : b.drop off = (readSample b off).wire ++ b.drop (off + 16) := by
  rw [drop_u32 (show off + 4 ≤ b.length by omega),drop_u32 (show off + 4 + 4 ≤ b.length by omega),
    drop_u32 (show off + 4 + 4 + 4 ≤ b.length by omega),drop_u32 (show off + 4 + 4 + 4 + 4 ≤ b.length by omega)]
  simp only [Sample.wire,readSample,List.append_assoc]

theorem drop_samples (n : Nat) (inside : off + n * 16 ≤ b.length) :
    b.drop off = ((List.range n).map (fun i => readSample b (off + i * 16))).flatMap Sample.wire ++ b.drop (off + n * 16) := by
  induction n with
  | zero => simp
  | succ n ih =>
    rw [ih (by omega),drop_sample (show off + n * 16 + 16 ≤ b.length by omega),List.range_succ]
    simp [Nat.succ_mul,Nat.add_assoc]

theorem readSample_eq {s : Sample} {rest : Bytes} (here : b.drop off = s.wire ++ rest) : readSample b off = s := by
  have tail {k : Nat} {v : UInt32} {rest : Bytes} (at_ : b.drop k = bytes 4 v.toNat ++ rest) : b.drop (k + 4) = rest := by
    rw [← List.drop_drop,at_,List.drop_left' (bytes_length 4 _)]
  simp only [Sample.wire,List.append_assoc] at here
  have second := tail here
  have third := tail second
  have fourth := tail third
  rw [readSample,readU32LE_eq here,readU32LE_eq second,readU32LE_eq third,readU32LE_eq fourth]

theorem Sample.wire_length (s : Sample) : s.wire.length = 16 := by
  simp [Sample.wire]

theorem readSamples_eq {samples : List Sample} {rest : Bytes} (here : b.drop off = samples.flatMap Sample.wire ++ rest) :
    (List.range samples.length).map (fun i => readSample b (off + i * 16)) = samples := by
  induction samples generalizing off with
  | nil => rfl
  | cons s later ih =>
    rw [List.flatMap_cons,List.append_assoc] at here
    have next : b.drop (off + 16) = later.flatMap Sample.wire ++ rest := by
      rw [← List.drop_drop,here,List.drop_left' s.wire_length]
    have shifted (i : Nat) : off + (i + 1) * 16 = off + 16 + i * 16 := by omega
    rw [List.length_cons,List.range_succ_eq_map,List.map_cons,List.map_map,Nat.zero_mul,Nat.add_zero,readSample_eq here]
    simp only [Function.comp_def,Nat.succ_eq_add_one,shifted,ih next]

end Reads

theorem flatMap_wire_length (samples : List Sample) : (samples.flatMap Sample.wire).length = samples.length * 16 := by
  simp [List.length_flatMap,Sample.wire_length]

theorem StrokePacket.header_length (p : StrokePacket) : p.header.length = CSP1_HEADER_BYTES := by
  simp [StrokePacket.header,CSP1_HEADER_BYTES]

theorem StrokePacket.wire_length (p : StrokePacket) :
    p.wire.length = CSP1_HEADER_BYTES + p.samples.length * CSP1_SAMPLE_BYTES := by
  rw [StrokePacket.wire,List.length_append,p.header_length,flatMap_wire_length]
  rfl

theorem StrokePacket.wire_eq (p : StrokePacket) :
    p.wire = bytes 4 CSP1_MAGIC.toNat ++ (bytes 4 p.peerId.toNat ++ (bytes 4 p.strokeId.toNat ++ (bytes 2 p.seq.toNat ++
      (bytes 2 p.samples.length.toUInt16.toNat ++ ((if p.closed then 1 else 0) :: 0 :: p.samples.flatMap Sample.wire))))) := by
  simp only [StrokePacket.wire,StrokePacket.header,List.append_assoc,List.cons_append,List.nil_append]

/-- The decoder on the bytes of a packet, whose count of samples is a 16-bit number. -/
theorem decode_wire (p : StrokePacket) : StrokePacket.decode p.wire = if p.samples.length < 2^16 then some p else none := by
  have tail {k n m : Nat} {rest : Bytes} (at_ : p.wire.drop k = bytes n m ++ rest) : p.wire.drop (k + n) = rest := by
    rw [← List.drop_drop,at_,List.drop_left' (bytes_length n m)]
  have next {k : Nat} {byte : UInt8} {rest : Bytes} (at_ : p.wire.drop k = byte :: rest) : p.wire.drop (k + 1) = rest := by
    rw [← List.drop_drop,at_,List.drop_one,List.tail_cons]
  have magic := p.wire_eq
  rw [← List.drop_zero (l := p.wire)] at magic
  have peer := tail magic
  have stroke := tail peer
  have seq := tail stroke
  have count := tail seq
  have closed := tail count
  have reserved := next closed
  have samples := next reserved
  have number : (readU16LE p.wire 14).toNat = p.samples.length % 2^16 := by
    rw [readU16LE_eq count]
    simp
  have flag : p.wire.getD 16 0 = if p.closed then 1 else 0 := getD_eq closed
  unfold StrokePacket.decode
  rw [if_neg (by rw [p.wire_length]; omega),if_neg (not_not.mpr (readU32LE_eq magic))]
  dsimp only
  rw [number,p.wire_length]
  split
  case isTrue cut =>
    rw [if_neg (by simp only [CSP1_SAMPLE_BYTES] at cut; omega)]
  case isFalse whole =>
    have small : p.samples.length < 2^16 := by
      simp only [CSP1_SAMPLE_BYTES] at whole
      omega
    rw [if_pos small,Nat.mod_eq_of_lt small,flag,if_neg (by cases p.closed <;> decide),if_neg (not_not.mpr (getD_eq reserved)),
      readU32LE_eq peer,readU32LE_eq stroke,readU16LE_eq seq]
    have all := readSamples_eq (by rw [samples,List.append_nil] : p.wire.drop 18 = p.samples.flatMap Sample.wire ++ [])
    have bit : ((if p.closed then 1 else 0 : UInt8) == 1) = p.closed := by cases p.closed <;> rfl
    rw [bit]
    exact congrArg (fun samples => some {p with samples := samples}) all

/-- What the decoder accepts is the bytes of the packet that it gives. -/
theorem decode_eq_some {b : Bytes} {p : StrokePacket} (accepted : StrokePacket.decode b = some p) :
    p.samples.length < 2^16 ∧ b = p.wire := by
  unfold StrokePacket.decode at accepted
  split at accepted
  case isTrue => contradiction
  case isFalse long =>
  split at accepted
  case isTrue => contradiction
  case isFalse magic =>
  dsimp only at accepted
  split at accepted
  case isTrue => contradiction
  case isFalse size =>
  split at accepted
  case isTrue => contradiction
  case isFalse flag =>
  split at accepted
  case isTrue => contradiction
  case isFalse reserved =>
  obtain rfl := Option.some.inj accepted
  rw [not_not] at magic size reserved
  have count : (readU16LE b 14).toNat < 2^16 := (readU16LE b 14).toNat_lt
  simp only [CSP1_HEADER_BYTES,CSP1_SAMPLE_BYTES] at size long
  refine ⟨by simpa using count,?_⟩
  have closed : b.getD 16 0 = if (b.getD 16 0 == 1) = true then 1 else 0 := by
    generalize b.getD 16 0 = byte at flag ⊢
    by_cases one : byte = 1
    · simp [one]
    · have zero : byte = 0 := by
        by_contra other
        exact flag ⟨other,one⟩
      simp [zero]
  have bound : b = b.drop 0 := rfl
  rw [StrokePacket.wire_eq]
  conv_lhs => rw [bound,drop_u32 (show 0 + 4 ≤ b.length by omega),drop_u32 (show 4 + 4 ≤ b.length by omega),
    drop_u32 (show 8 + 4 ≤ b.length by omega),drop_u16 (show 12 + 2 ≤ b.length by omega),
    drop_u16 (show 14 + 2 ≤ b.length by omega),drop_byte (show 16 < b.length by omega),
    drop_byte (show 17 < b.length by omega),drop_samples _ (show 18 + (readU16LE b 14).toNat * 16 ≤ b.length by omega),
    List.drop_eq_nil_of_le (show b.length ≤ 18 + (readU16LE b 14).toNat * 16 by omega)]
  have written : (readU16LE b 14).toNat.toUInt16 = readU16LE b 14 := UInt16.ofNat_toNat
  simp only [magic,reserved,List.append_nil,List.length_map,List.length_range,written,← closed]
  rfl

theorem wire_inj {p q : StrokePacket} (short : p.samples.length < 2^16) (short' : q.samples.length < 2^16)
    (same : p.wire = q.wire) : p = q := by
  have decoded := decode_wire p
  rw [same,decode_wire q,if_pos short,if_pos short'] at decoded
  exact (Option.some.inj decoded).symm

theorem StrokePacket.written_length (p : StrokePacket) : p.written.samples.length = p.samples.length := by
  rw [written,List.length_map]

theorem DoublePacket.words_doubles (p : DoublePacket) : p.words.doubles = p.rounded := by
  have sample (s : DoubleSample) : s.words.doubles = s.rounded := by
    simp only [DoubleSample.words,Sample.doubles,DoubleSample.rounded,widen,Lib.Floats.ofBits_toBits]
  simp [words,StrokePacket.doubles,rounded,Function.comp_def,sample]

/-- A packet comes back with its numbers rounded to 32 bits, and one of more samples than its
count can say is never accepted. -/
theorem decode_encode (p : DoublePacket) :
    DoublePacket.decode p.encode = if p.samples.length < 2^16 then some p.rounded else none := by
  have length : p.words.samples.length = p.samples.length := List.length_map _
  rw [DoublePacket.decode,p.encode_eq,decode_wire,length,← p.words_doubles]
  split <;> rfl

/-- With conversions that are exact from 32 bits to 64 and back, the encoder on the doubles of a
decoded packet is the one on its words. -/
theorem encode_doubles (exact : ∀ x : Float32, x.toFloat.toFloat32 = x) (p : StrokePacket) : p.doubles.encode = p.encode := by
  have sample (s : Sample) : s.doubles.words = s.mapWords (fun word => (Float32.ofBits word).toBits) := by
    simp only [Sample.doubles,DoubleSample.words,widen,exact,Sample.mapWords]
  rw [DoublePacket.encode_eq,encode_eq]
  simp [DoublePacket.words,StrokePacket.doubles,StrokePacket.written,Function.comp_def,sample]

theorem toBits_ofBits_eq_self (word : UInt32) :
    (Float32.ofBits word).toBits = word ↔ (Lib.Floats.IsNaNWord word → word = 0x7fc00000) := by
  rw [Lib.Floats.toBits_ofBits]
  split
  case isTrue nan => exact ⟨fun same _ => same.symm,fun canonical => (canonical nan).symm⟩
  case isFalse number => exact ⟨fun _ nan => absurd nan number,fun _ => rfl⟩

theorem StrokePacket.written_eq_self (p : StrokePacket) : p.written = p ↔
    ∀ s ∈ p.samples, ∀ word ∈ [s.x,s.y,s.z,s.pressure], Lib.Floats.IsNaNWord word → word = 0x7fc00000 := by
  have words (s : Sample) : s.mapWords (fun word => (Float32.ofBits word).toBits) = s ↔
      ∀ word ∈ [s.x,s.y,s.z,s.pressure], Lib.Floats.IsNaNWord word → word = 0x7fc00000 := by
    obtain ⟨x,y,z,pressure⟩ := s
    simp only [Sample.mapWords,Sample.mk.injEq,toBits_ofBits_eq_self,List.forall_mem_cons]
    simp
  have samples : p.written = p ↔ p.samples.map (Sample.mapWords (fun word => (Float32.ofBits word).toBits)) = p.samples := by
    obtain ⟨peerId,strokeId,seq,closed,samples⟩ := p
    simp [written]
  have fixed := List.map_inj_left (l := p.samples) (f := Sample.mapWords (fun word => (Float32.ofBits word).toBits)) (g := id)
  rw [List.map_id] at fixed
  rw [samples,fixed]
  exact forall₂_congr (fun s _ => words s)

/-- Bytes that the decoder accepts are what the encoder writes for their packet, unless they hold
a NaN in another pattern than its own. -/
theorem encode_decode {b : Bytes} {p : StrokePacket} (accepted : StrokePacket.decode b = some p) :
    p.encode = b ↔ ∀ s ∈ p.samples, ∀ word ∈ [s.x,s.y,s.z,s.pressure], Lib.Floats.IsNaNWord word → word = 0x7fc00000 := by
  obtain ⟨short,rfl⟩ := decode_eq_some accepted
  rw [encode_eq,← p.written_eq_self]
  constructor
  · exact wire_inj (by rwa [p.written_length]) short
  · exact congrArg StrokePacket.wire

/-- A stroke of one sample at the origin. -/
def dot : StrokePacket := ⟨7,1,0,true,[⟨0,0,0,0x3f800000⟩]⟩

theorem encode_decode_dot : dot.encode = dot.wire :=
  (encode_decode (p := dot) (b := dot.wire) (by decide +kernel)).mpr
    (by simp [dot,Lib.Floats.IsNaNWord,UInt32.le_iff_toNat_le])

end WarpLoop.Sketch
