import WarpLoop.H3.Qpack

/-! A request with its credentials and its body, as two frames
(flow-toolchain/examples/artifacts_mmo_h3_client.c), and the lengths of frames
(flow-toolchain/thirdparty/picoquic/picoquic/intformat.c). -/
namespace WarpLoop.H3
open Lib.Wire

def h3zeroFrameData : UInt8 := 0

def h3zeroFrameHeader : UInt8 := 1

/-- What is written into `maxBytes` bytes, which is nothing where the number does not fit. -/
def picoquicVarintEncode (maxBytes n64 : Nat) : Bytes :=
  if n64 < 16384 then
    if n64 < 64 then
      if maxBytes > 0 then [UInt8.ofNat n64] else []
    else
      if maxBytes ≥ 2 then [UInt8.ofNat (n64 >>> 8 ||| 0x40),UInt8.ofNat n64] else []
  else if n64 < 1073741824 then
    if maxBytes ≥ 4 then
      [UInt8.ofNat (n64 >>> 24 ||| 0x80),UInt8.ofNat (n64 >>> 16),UInt8.ofNat (n64 >>> 8),UInt8.ofNat n64]
    else []
  else
    if maxBytes ≥ 8 then
      [UInt8.ofNat (n64 >>> 56 ||| 0xC0),UInt8.ofNat (n64 >>> 48),UInt8.ofNat (n64 >>> 40),UInt8.ofNat (n64 >>> 32),
        UInt8.ofNat (n64 >>> 24),UInt8.ofNat (n64 >>> 16),UInt8.ofNat (n64 >>> 8),UInt8.ofNat n64]
    else []

/-- How many bytes were read, and their number. -/
def picoquicVarintDecode : Bytes → Nat × Nat
  | [] => (0,0)
  | first :: rest =>
    let length := 1 <<< ((first &&& 0xC0) >>> 6).toNat
    if length > rest.length + 1 then (0,0)
    else (length,(rest.take (length - 1)).foldl (fun v byte => (v <<< 8) + byte.toNat) (first &&& 0x3F).toNat)

/-- The number that `snprintf` returns and what it leaves in the array. -/
def snprintf (size : Nat) (text : Bytes) : Int × Bytes :=
  (if text.length ≤ 2147483647 then text.length else -1,text.take (size - 1))

def memmove (bytes : Bytes) (dst src n : Nat) : Bytes := bytes.take dst ++ (bytes.drop src).take n ++ bytes.drop (dst + n)

/-- The credentials, which no entry of the static table stands for. -/
def encodeAuthorization (oBytes : Option Bytes) (maxBytes : Nat) (bearerToken : Option Bytes) : Option Bytes :=
  match oBytes,bearerToken with
  | some oBytes,some bearerToken =>
    let (n,authValue) := snprintf 512 (ascii "Bearer " ++ bearerToken)
    if n > 0 ∧ n.toNat < 512 then
      h3zeroQpackLiteralPlusNameEncode (some oBytes) maxBytes (ascii "authorization") (authValue.take n.toNat)
    else some oBytes
  | oBytes,_ => oBytes

/-- The length of the header frame, in one byte less where it is small. -/
def patchLength (oBytes : Bytes) : Bytes :=
  let headerLength := oBytes.length - 3
  if headerLength < 64 then
    (memmove (oBytes.set 1 (UInt8.ofNat headerLength)) 2 3 headerLength).take (oBytes.length - 1)
  else (oBytes.set 1 (UInt8.ofNat (headerLength >>> 8 ||| 0x40))).set 2 (UInt8.ofNat (headerLength &&& 0xFF))

def appendBody (oBytes : Bytes) (maxBytes : Nat) (body : Option Bytes) : Option Bytes :=
  match body with
  | none => some oBytes
  | some body =>
    if body.length > 0 then
      if oBytes.length + 1 + 8 > maxBytes then none
      else
        let oBytes := oBytes ++ [h3zeroFrameData]
        let ll := picoquicVarintEncode (maxBytes - oBytes.length) body.length
        if ll.length = 0 then none
        else
          let oBytes := oBytes ++ ll
          if oBytes.length + body.length > maxBytes then none else some (oBytes ++ body)
    else some oBytes

/-- The bytes that are sent, if any; `reserved` is what the buffer held where the length goes. -/
def buildAuthenticatedRequest (reserved : UInt8 × UInt8) (maxBytes : Nat) (method path : Bytes) (host bearerToken body : Option Bytes) :
    Option Bytes :=
  if maxBytes < 3 ∨ host = none then none
  else
    let oBytes := [h3zeroFrameHeader,reserved.1,reserved.2]
    let oBytes :=
      if method = ascii "POST" then h3zeroCreatePostHeaderFrame (some oBytes) maxBytes path host .json
      else h3zeroCreateRequestHeaderFrameEx (some oBytes) maxBytes path [] host (some h3zeroUserAgentString)
    let oBytes := encodeAuthorization oBytes maxBytes bearerToken
    match oBytes with
    | none => none
    | some oBytes => appendBody (patchLength oBytes) maxBytes body

/-! Frames. -/

/-- A type, a length that reads as the length of the payload, and the payload. -/
def Frame (type : UInt8) (payload bytes : Bytes) : Prop :=
  ∃ length, length ≠ [] ∧ bytes = type :: (length ++ payload) ∧
    picoquicVarintDecode (length ++ payload) = (length.length,payload.length)

theorem picoquicVarintDecode_append {bytes : Bytes} {length value : Nat} (read : picoquicVarintDecode bytes = (length,value))
    (positive : 0 < length) (more : Bytes) : picoquicVarintDecode (bytes ++ more) = (length,value) := by
  cases bytes with
  | nil =>
    obtain ⟨rfl,_⟩ := Prod.mk.inj read
    exact absurd positive (Nat.lt_irrefl 0)
  | cons first rest =>
    rw [picoquicVarintDecode] at read
    rw [List.cons_append,picoquicVarintDecode,← read]
    split at read
    case isTrue =>
      obtain ⟨rfl,_⟩ := Prod.mk.inj read
      exact absurd positive (Nat.lt_irrefl 0)
    case isFalse whole => rw [if_neg (by rw [List.length_append]; omega),if_neg whole,List.take_append_of_le_length (by omega)]

/-- The frame at the beginning of a stream is determined by the stream. -/
theorem Frame.payload_eq {type other : UInt8} {payload bytes payload' bytes' data data' : Bytes} (frame : Frame type payload bytes)
    (frame' : Frame other payload' bytes') (same : bytes ++ data = bytes' ++ data') : payload = payload' := by
  obtain ⟨length,some_length,rfl,read⟩ := frame
  obtain ⟨length',some_length',rfl,read'⟩ := frame'
  have rest : length ++ payload ++ data = length' ++ payload' ++ data' := (List.cons.inj same).2
  have first := picoquicVarintDecode_append read (List.length_pos_iff.mpr some_length) data
  have second := picoquicVarintDecode_append read' (List.length_pos_iff.mpr some_length') data'
  rw [rest,second] at first
  obtain ⟨lengths,payloads⟩ := Prod.mk.inj first
  rw [List.append_assoc,List.append_assoc] at rest
  obtain ⟨_,remaining⟩ := List.append_inj rest lengths.symm
  exact (List.append_inj remaining payloads.symm).1

theorem first_byte : ∀ kind < 4, ∀ high < 64, ((UInt8.ofNat (high ||| kind <<< 6) &&& 0xC0) >>> 6).toNat = kind ∧
    (UInt8.ofNat (high ||| kind <<< 6) &&& 0x3F).toNat = high := by
  decide +kernel

theorem picoquicVarintDecode_cons {kind high : Nat} (four : kind < 4) (low : high < 64) {tail : Bytes}
    (long : tail.length + 1 = 1 <<< kind) (rest : Bytes) :
    picoquicVarintDecode (UInt8.ofNat (high ||| kind <<< 6) :: tail ++ rest) =
      (tail.length + 1,tail.foldl (fun v byte => (v <<< 8) + byte.toNat) high) := by
  obtain ⟨tag,value⟩ := first_byte kind four high low
  rw [List.cons_append,picoquicVarintDecode,tag,value,← long]
  rw [if_neg (by rw [List.length_append]; omega),Nat.add_sub_cancel,List.take_left]

/-- With room for the longest form, every number of 62 bits is read back. -/
theorem picoquicVarintDecode_encode {maxBytes n : Nat} (room : 8 ≤ maxBytes) (small : n < 2 ^ 62) (rest : Bytes) :
    picoquicVarintDecode (picoquicVarintEncode maxBytes n ++ rest) = ((picoquicVarintEncode maxBytes n).length,n) := by
  unfold picoquicVarintEncode
  simp only [Nat.shiftRight_eq_div_pow]
  by_cases two : n < 16384
  · by_cases one : n < 64
    · have read := @picoquicVarintDecode_cons 0 n (by decide) one [] rfl rest
      rw [Nat.zero_shiftLeft,Nat.or_zero] at read
      rw [if_pos two,if_pos one,if_pos (by omega),read]
      rfl
    · have read := @picoquicVarintDecode_cons 1 (n / 2 ^ 8) (by decide) (by omega) [UInt8.ofNat n] rfl rest
      rw [if_pos two,if_neg one,if_pos (by omega)]
      refine read.trans (Prod.ext rfl ?_)
      simp only [List.foldl_cons,List.foldl_nil,UInt8.toNat_ofNat',Nat.shiftLeft_eq]
      omega
  · by_cases four : n < 1073741824
    · have read := @picoquicVarintDecode_cons 2 (n / 2 ^ 24) (by decide) (by omega)
        [UInt8.ofNat (n / 2 ^ 16),UInt8.ofNat (n / 2 ^ 8),UInt8.ofNat n] rfl rest
      rw [if_neg two,if_pos four,if_pos (by omega)]
      refine read.trans (Prod.ext rfl ?_)
      simp only [List.foldl_cons,List.foldl_nil,UInt8.toNat_ofNat',Nat.shiftLeft_eq]
      omega
    · have read := @picoquicVarintDecode_cons 3 (n / 2 ^ 56) (by decide) (by omega)
        [UInt8.ofNat (n / 2 ^ 48),UInt8.ofNat (n / 2 ^ 40),UInt8.ofNat (n / 2 ^ 32),UInt8.ofNat (n / 2 ^ 24),
          UInt8.ofNat (n / 2 ^ 16),UInt8.ofNat (n / 2 ^ 8),UInt8.ofNat n] rfl rest
      rw [if_neg two,if_neg four,if_pos (by omega)]
      refine read.trans (Prod.ext rfl ?_)
      simp only [List.foldl_cons,List.foldl_nil,UInt8.toNat_ofNat',Nat.shiftLeft_eq]
      omega

/-- The bytes that a number takes. -/
def varintSize (n : Nat) : Nat := if n < 64 then 1 else if n < 16384 then 2 else if n < 1073741824 then 4 else 8

theorem varintSize_pos (n : Nat) : 0 < varintSize n := by
  unfold varintSize
  split
  · decide
  · split
    · decide
    · split <;> decide

theorem length_varint {maxBytes : Nat} (room : 8 ≤ maxBytes) (n : Nat) : (picoquicVarintEncode maxBytes n).length = varintSize n := by
  unfold picoquicVarintEncode varintSize
  by_cases two : n < 16384
  · by_cases one : n < 64
    · rw [if_pos two,if_pos one,if_pos one,if_pos (by omega),List.length_singleton]
    · rw [if_pos two,if_neg one,if_neg one,if_pos two,if_pos (by omega),List.length_cons,List.length_singleton]
  · rw [if_neg two,if_neg (show ¬ n < 64 by omega),if_neg two]
    by_cases four : n < 1073741824
    · rw [if_pos four,if_pos four,if_pos (by omega)]
      rfl
    · rw [if_neg four,if_neg four,if_pos (by omega)]
      rfl

theorem Frame.of_varint {maxBytes : Nat} (room : 8 ≤ maxBytes) (type : UInt8) {payload : Bytes} (small : payload.length < 2 ^ 62) :
    Frame type payload (type :: (picoquicVarintEncode maxBytes payload.length ++ payload)) :=
  ⟨_,List.length_pos_iff.mp (length_varint room payload.length ▸ varintSize_pos payload.length),rfl,
    picoquicVarintDecode_encode room small payload⟩

/-! The sizes of the parts, and when all of them fit. -/

def groups (n : Nat) : Nat := if n < 0x80 then 1 else 1 + groups (n / 0x80)
termination_by n

def stringSize (n : Nat) : Nat := (if n < 0x7F then 1 else 1 + groups (n - 0x7F)) + n

def blockSize (method path host : Bytes) : Nat :=
  19 + stringSize path.length + stringSize host.length + if method = ascii "POST" then 1 else 0

def frameSize (n : Nat) : Nat := (if n < 64 then 2 else 3) + n

structure Fits (maxBytes block : Nat) (body : Bytes) : Prop where
  header : 3 + block ≤ maxBytes
  reserve : body ≠ [] → frameSize block + 9 ≤ maxBytes
  data : body ≠ [] → frameSize block + 1 + varintSize body.length + body.length ≤ maxBytes

theorem continued_length (n : Nat) : (continued n).length = groups n := by
  induction n using Nat.strong_induction_on with
  | _ n ih =>
    rw [continued,groups]
    by_cases small : n < 0x80
    · rw [if_pos small,if_pos small,List.length_singleton]
    · have high : n >>> 7 = n / 0x80 := Nat.shiftRight_eq_div_pow n 7
      rw [if_neg small,if_neg small,List.length_cons,high,ih (n / 0x80) (by omega),Nat.add_comm]

theorem prefixed_length (tag mask : UInt8) (n : Nat) :
    (prefixed tag mask n).length = if n < mask.toNat then 1 else 1 + groups (n - mask.toNat) := by
  unfold prefixed
  split
  · rfl
  · rw [List.length_cons,continued_length,Nat.add_comm]

theorem named_length (index : Nat) (value : Bytes) :
    (Field.named index value).bytes.length = (prefixed 0x50 0x0F index).length + stringSize value.length := by
  rw [Field.bytes,List.length_append,List.length_append,@prefixed_length 0x00,stringSize]
  rfl

/-- The fields without the credentials. -/
def plainFields (method path host : Bytes) : List Field :=
  if method = ascii "POST" then
    requestFields h3zeroQpackCodePost path [] (some host) (some h3zeroUserAgentString) ++ [.indexed 46]
  else requestFields h3zeroQpackCodeGet path [] (some host) (some h3zeroUserAgentString)

/-- The credentials that go with the request. -/
def credentials (bearerToken : Option Bytes) : List Field :=
  match bearerToken with
  | none => []
  | some token => if token.length ≤ 504 then [.literal (ascii "authorization") (ascii "Bearer " ++ token)] else []

def fieldBlock (fields : List Field) : Bytes := [0,0] ++ fields.flatMap Field.bytes

theorem fieldBlock_length (method path host : Bytes) : (fieldBlock (plainFields method path host)).length = blockSize method path host := by
  have get : (Field.indexed h3zeroQpackCodeGet).bytes.length = 1 := by decide
  have post : (Field.indexed h3zeroQpackCodePost).bytes.length = 1 := by decide
  have scheme : (Field.indexed h3zeroQpackSchemeHttps).bytes.length = 1 := by decide
  have json : (Field.indexed 46).bytes.length = 1 := by decide
  have agent : (Field.named h3zeroQpackUserAgent h3zeroUserAgentString).bytes.length = 13 := by
    rw [named_length,prefixed_length]
    have long : ¬ h3zeroQpackUserAgent < (0x0F : UInt8).toNat := by decide
    have size : h3zeroUserAgentString.length = 10 := by decide
    have few : h3zeroQpackUserAgent - (0x0F : UInt8).toNat = 80 := by decide
    rw [if_neg long,size,few,groups,stringSize]
    rfl
  have path_length : (Field.named h3zeroQpackCodePath path).bytes.length = 1 + stringSize path.length := named_length _ _
  have host_length : (Field.named h3zeroQpackAuthority host).bytes.length = 1 + stringSize host.length := named_length _ _
  unfold plainFields fieldBlock blockSize requestFields
  by_cases posts : method = ascii "POST"
  · rw [if_pos posts,if_pos posts]
    simp only [List.flatMap_cons,List.flatMap_nil,List.flatMap_append,List.length_append,Option.toList,List.map_cons,List.map_nil,
      List.length_nil,List.length_cons,gt_iff_lt,lt_irrefl,if_false,post,scheme,json,agent,path_length,host_length]
    omega
  · rw [if_neg posts,if_neg posts]
    simp only [List.flatMap_cons,List.flatMap_nil,List.flatMap_append,List.length_append,Option.toList,List.map_cons,List.map_nil,
      List.length_nil,List.length_cons,gt_iff_lt,lt_irrefl,if_false,get,scheme,agent,path_length,host_length]
    omega

theorem header_eq (oBytes : Bytes) (maxBytes : Nat) (method path host : Bytes) :
    (if method = ascii "POST" then h3zeroCreatePostHeaderFrame (some oBytes) maxBytes path (some host) .json
      else h3zeroCreateRequestHeaderFrameEx (some oBytes) maxBytes path [] (some host) (some h3zeroUserAgentString)) =
      put maxBytes (fieldBlock (plainFields method path host)) oBytes := by
  unfold plainFields fieldBlock
  split
  case isTrue =>
    rw [h3zeroCreatePostHeaderFrame,h3zeroCreatePostHeaderFrameEx,
      h3zeroEncodeContentType_eq _ _ (show qpackStaticContentTypes.find? (fun row => row.2 == .json) = some (46,.json) by decide),
      pseudoHeaders_eq,bind_put,Option.bind_some,List.append_assoc,List.flatMap_append,List.flatMap_singleton]
  case isFalse => rw [h3zeroCreateRequestHeaderFrameEx,pseudoHeaders_eq,Option.bind_some]

theorem fieldBlock_append (fields more : List Field) : fieldBlock (fields ++ more) = fieldBlock fields ++ more.flatMap Field.bytes := by
  rw [fieldBlock,fieldBlock,List.flatMap_append,List.append_assoc]

theorem encodeAuthorization_some (written : Bytes) (maxBytes : Nat) (token : Bytes) :
    encodeAuthorization (some written) maxBytes (some token) =
      if token.length ≤ 504 then put maxBytes (Field.literal (ascii "authorization") (ascii "Bearer " ++ token)).bytes written
      else some written := by
  have seven : (ascii "Bearer ").length = 7 := by decide
  have length : (ascii "Bearer " ++ token).length = 7 + token.length := by rw [List.length_append,seven]
  rw [encodeAuthorization,snprintf,length]
  dsimp only
  by_cases small : token.length ≤ 504
  · have returned : 7 + token.length ≤ 2147483647 := by omega
    rw [if_pos returned,if_pos ⟨by omega,by omega⟩,if_pos small,h3zeroQpackLiteralPlusNameEncode_eq,Option.bind_some,List.take_take,
      List.take_of_length_le (by rw [length]; omega)]
  · rw [if_neg small,if_neg]
    split <;> omega

theorem encodeAuthorization_eq (oBytes : Option Bytes) (maxBytes : Nat) (fields : List Field) (bearerToken : Option Bytes) :
    encodeAuthorization (oBytes.bind (put maxBytes (fieldBlock fields))) maxBytes bearerToken =
      oBytes.bind (put maxBytes (fieldBlock (fields ++ credentials bearerToken))) := by
  rw [fieldBlock_append,← bind_put]
  cases reached : oBytes.bind (put maxBytes (fieldBlock fields)) with
  | none => rfl
  | some written =>
    obtain ⟨start,_,fits⟩ := Option.bind_eq_some_iff.mp reached
    have unchanged := put_nil (put_eq_some fits).2
    rw [Option.bind_some]
    cases bearerToken with
    | none => exact unchanged.symm
    | some token =>
      rw [encodeAuthorization_some,credentials]
      split
      · rw [List.flatMap_singleton]
      · exact unchanged.symm

theorem patchLength_eq (reserved : UInt8 × UInt8) {block : Bytes} (small : block.length < 16384) :
    patchLength ([h3zeroFrameHeader,reserved.1,reserved.2] ++ block) =
      h3zeroFrameHeader :: (picoquicVarintEncode 8 block.length ++ block) := by
  have length : ([h3zeroFrameHeader,reserved.1,reserved.2] ++ block).length = block.length + 3 := by
    rw [List.length_append,Nat.add_comm]
    rfl
  rw [patchLength,picoquicVarintEncode,length,Nat.add_sub_cancel,if_pos small]
  by_cases one : block.length < 64
  · have moved : memmove (([h3zeroFrameHeader,reserved.1,reserved.2] ++ block).set 1 (UInt8.ofNat block.length)) 2 3 block.length =
        [h3zeroFrameHeader,UInt8.ofNat block.length] ++ block ++ (reserved.2 :: block).drop block.length := by
      simp [memmove,Nat.add_comm 2]
    rw [if_pos one,if_pos one,if_pos (by decide),moved,List.take_left' (by rw [List.length_append,Nat.add_comm]; rfl)]
    rfl
  · have low : UInt8.ofNat (block.length &&& 0xFF) = UInt8.ofNat block.length := by
      rw [show block.length &&& 0xFF = block.length % 256 from Nat.and_two_pow_sub_one_eq_mod block.length 8]
      exact UInt8.ofNat_mod_size
    rw [if_neg one,if_neg one,if_pos (by decide),low]
    rfl

theorem varint_room {maxBytes : Nat} (room : 8 ≤ maxBytes) (n : Nat) : picoquicVarintEncode maxBytes n = picoquicVarintEncode 8 n := by
  unfold picoquicVarintEncode
  rw [if_pos (show maxBytes > 0 by omega),if_pos (show maxBytes ≥ 2 by omega),if_pos (show maxBytes ≥ 4 by omega),if_pos room]
  rfl

theorem appendBody_eq (oBytes : Bytes) (maxBytes : Nat) (body : Option Bytes) :
    appendBody oBytes maxBytes body = if body.getD [] = [] then some oBytes
      else if oBytes.length + 9 ≤ maxBytes ∧ oBytes.length + 1 + varintSize (body.getD []).length + (body.getD []).length ≤ maxBytes
        then some (oBytes ++ h3zeroFrameData :: (picoquicVarintEncode 8 (body.getD []).length ++ body.getD [])) else none := by
  cases body with
  | none => rfl
  | some body =>
    rw [appendBody,Option.getD_some]
    by_cases empty : body = []
    · rw [if_pos empty,empty,if_neg (by decide)]
    · rw [if_neg empty,if_pos (List.length_pos_iff.mpr empty)]
      by_cases reserve : oBytes.length + 9 ≤ maxBytes
      · have room : 8 ≤ maxBytes - (oBytes ++ [h3zeroFrameData]).length := by
          rw [List.length_append,List.length_singleton]
          omega
        have size := length_varint (Nat.le_refl 8) body.length
        have some_bytes := Nat.ne_of_gt (varintSize_pos body.length)
        rw [if_neg (by omega)]
        dsimp only
        rw [varint_room room,size,if_neg some_bytes,List.length_append,List.length_append,size,List.length_singleton]
        by_cases fits : oBytes.length + 1 + varintSize body.length + body.length ≤ maxBytes
        · rw [if_neg (by omega),if_pos ⟨reserve,fits⟩,List.append_assoc,List.append_assoc]
          rfl
        · rw [if_pos (by omega),if_neg (fun both => fits both.2)]
      · rw [if_pos (by omega),if_neg (fun both => reserve both.1)]

/-! The request as a whole. -/

def requestWith (method path host : Bytes) (bearerToken : Option Bytes) : List Field :=
  plainFields method path host ++ credentials bearerToken

def headerFrame (fields : List Field) : Bytes :=
  h3zeroFrameHeader :: (picoquicVarintEncode 8 (fieldBlock fields).length ++ fieldBlock fields)

def dataFrame (body : Bytes) : Bytes :=
  if body = [] then [] else h3zeroFrameData :: (picoquicVarintEncode 8 body.length ++ body)

theorem headerFrame_length {fields : List Field} (small : (fieldBlock fields).length < 16384) :
    (headerFrame fields).length = frameSize (fieldBlock fields).length := by
  rw [headerFrame,List.length_cons,List.length_append,length_varint (Nat.le_refl 8),varintSize,frameSize]
  split <;> omega

/-- A request is built just when all of it fits, and is its two frames then. -/
theorem buildAuthenticatedRequest_iff (reserved : UInt8 × UInt8) {maxBytes : Nat} (small : maxBytes ≤ 4096) (method path host : Bytes)
    (bearerToken body : Option Bytes) (out : Bytes) :
    buildAuthenticatedRequest reserved maxBytes method path (some host) bearerToken body = some out ↔
      Fits maxBytes (fieldBlock (requestWith method path host bearerToken)).length (body.getD []) ∧
        out = headerFrame (requestWith method path host bearerToken) ++ dataFrame (body.getD []) := by
  have begun := encodeAuthorization_eq (some [h3zeroFrameHeader,reserved.1,reserved.2]) maxBytes (plainFields method path host) bearerToken
  rw [Option.bind_some,Option.bind_some,← header_eq] at begun
  rw [buildAuthenticatedRequest]
  dsimp only
  rw [begun]
  change (if _ then none else match put maxBytes (fieldBlock (requestWith method path host bearerToken)) _ with
    | none => none
    | some oBytes => appendBody (patchLength oBytes) maxBytes body) = some out ↔ _
  have three : ∀ block : Bytes, put maxBytes block [h3zeroFrameHeader,reserved.1,reserved.2] =
      if 3 + block.length ≤ maxBytes then some ([h3zeroFrameHeader,reserved.1,reserved.2] ++ block) else none := fun _ => rfl
  rw [three]
  by_cases header : 3 + (fieldBlock (requestWith method path host bearerToken)).length ≤ maxBytes
  · have short : (fieldBlock (requestWith method path host bearerToken)).length < 16384 := by omega
    have size := headerFrame_length short
    have host_given : ¬ (maxBytes < 3 ∨ some host = none) := by
      rintro (few | none)
      · omega
      · contradiction
    rw [if_neg host_given,if_pos header]
    dsimp only
    rw [patchLength_eq reserved short,← headerFrame,appendBody_eq,size,dataFrame]
    by_cases empty : body.getD [] = []
    · rw [if_pos empty,if_pos empty,List.append_nil,Option.some.injEq]
      exact ⟨fun same => ⟨⟨header,fun some_body => absurd empty some_body,fun some_body => absurd empty some_body⟩,same.symm⟩,
        fun built => built.2.symm⟩
    · rw [if_neg empty,if_neg empty]
      constructor
      · intro built
        split at built
        case isTrue fits =>
          exact ⟨⟨header,fun _ => fits.1,fun _ => fits.2⟩,(Option.some.inj built).symm⟩
        case isFalse => contradiction
      · rintro ⟨fits,rfl⟩
        rw [if_pos ⟨fits.reserve empty,fits.data empty⟩]
  · rw [if_neg header]
    constructor
    · intro built
      split at built <;> contradiction
    · exact fun built => absurd built.1.header header

/-- One frame of fields, then one of the body if there is any, within the buffer; the fields
hold the credentials that were given. -/
structure Complete (maxBytes : Nat) (bearerToken body : Option Bytes) (out : Bytes) : Prop where
  length : out.length ≤ maxBytes
  frames : ∃ block headers data, out = headers ++ data ∧ Frame h3zeroFrameHeader block headers ∧
    (if body.getD [] = [] then data = [] else Frame h3zeroFrameData (body.getD []) data) ∧
    ∀ token, bearerToken = some token →
      ∃ fields, FieldBlock block fields ∧ .literal (ascii "authorization") (ascii "Bearer " ++ token) ∈ fields

theorem frames_length {maxBytes : Nat} (small : maxBytes ≤ 4096) {fields : List Field} {body : Bytes}
    (fits : Fits maxBytes (fieldBlock fields).length body) : (headerFrame fields ++ dataFrame body).length ≤ maxBytes := by
  obtain ⟨header,_,data⟩ := fits
  rw [List.length_append,headerFrame_length (by omega),dataFrame]
  by_cases empty : body = []
  · rw [if_pos empty,List.length_nil,frameSize]
    split <;> omega
  · have room := data empty
    rw [if_neg empty,List.length_cons,List.length_append,length_varint (Nat.le_refl 8)]
    omega

theorem complete_of_fits {maxBytes : Nat} (small : maxBytes ≤ 4096) {method path host : Bytes} {bearerToken body : Option Bytes}
    (carried : ∀ token, bearerToken = some token → token.length ≤ 504)
    (fits : Fits maxBytes (fieldBlock (requestWith method path host bearerToken)).length (body.getD [])) :
    Complete maxBytes bearerToken body (headerFrame (requestWith method path host bearerToken) ++ dataFrame (body.getD [])) := by
  refine ⟨frames_length small fits,_,_,_,rfl,.of_varint (Nat.le_refl 8) _ ?_,?_,?_⟩
  · have header := fits.header
    omega
  · unfold dataFrame
    by_cases empty : body.getD [] = []
    · rw [if_pos empty,if_pos empty]
    · have room := fits.data empty
      rw [if_neg empty,if_neg empty]
      exact .of_varint (Nat.le_refl 8) _ (by omega)
  · rintro token rfl
    refine ⟨_,.of_fields _,List.mem_append_right _ ?_⟩
    rw [credentials,if_pos (carried token rfl)]
    exact List.mem_singleton_self _

theorem no_credentials (method path host token : Bytes) :
    .literal (ascii "authorization") (ascii "Bearer " ++ token) ∉ plainFields method path host := by
  unfold plainFields requestFields
  split <;> simp

/-- A token that is too long is left out without a word. -/
theorem sent_without_credentials (reserved : UInt8 × UInt8) {maxBytes : Nat} (small : maxBytes ≤ 4096) {method path host token : Bytes}
    {body : Option Bytes} (long : 505 ≤ token.length) (fits : Fits maxBytes (blockSize method path host) (body.getD [])) :
    ∃ out, buildAuthenticatedRequest reserved maxBytes method path (some host) (some token) body = some out ∧
      ¬ Complete maxBytes (some token) body out := by
  have dropped : requestWith method path host (some token) = plainFields method path host := by
    rw [requestWith,credentials,if_neg (by omega),List.append_nil]
  rw [← fieldBlock_length,← dropped] at fits
  refine ⟨_,(buildAuthenticatedRequest_iff reserved small method path host (some token) body _).mpr ⟨fits,rfl⟩,?_⟩
  rintro ⟨_,block,headers,data,same,frame,_,held⟩
  obtain ⟨fields,read,member⟩ := held token rfl
  have header := fits.header
  have sent := Frame.of_varint (Nat.le_refl 8) h3zeroFrameHeader
    (show (fieldBlock (requestWith method path host (some token))).length < 2 ^ 62 by omega)
  obtain rfl := sent.payload_eq frame same
  obtain rfl := (FieldBlock.of_fields _).unique read
  rw [dropped] at member
  exact no_credentials method path host token member

/-- The request is complete unless it is sent with a token that is too long, and then without
its credentials. -/
theorem request_complete_iff (reserved : UInt8 × UInt8) {maxBytes : Nat} (small : maxBytes ≤ 4096) (method path : Bytes)
    (host bearerToken body : Option Bytes) :
    (∀ out, buildAuthenticatedRequest reserved maxBytes method path host bearerToken body = some out →
      Complete maxBytes bearerToken body out) ↔
      ∀ h token, host = some h → bearerToken = some token → 505 ≤ token.length →
        ¬ Fits maxBytes (blockSize method path h) (body.getD []) := by
  constructor
  · rintro complete h token rfl rfl long fits
    obtain ⟨out,built,incomplete⟩ := sent_without_credentials reserved small long fits
    exact incomplete (complete out built)
  · intro condition out built
    cases host with
    | none =>
      rw [buildAuthenticatedRequest,if_pos (.inr rfl)] at built
      contradiction
    | some h =>
      obtain ⟨fits,rfl⟩ := (buildAuthenticatedRequest_iff reserved small method path h bearerToken body out).mp built
      apply complete_of_fits small _ fits
      rintro token rfl
      by_contra long
      apply condition h token rfl rfl (by omega)
      rwa [requestWith,credentials,if_neg long,List.append_nil,fieldBlock_length] at fits

theorem request_complete_iff_greeting : ∃ out,
    buildAuthenticatedRequest (0,0) 4096 (ascii "POST") (ascii "/") (some (ascii "h")) (some (ascii "t")) (some (ascii "b")) = some out ∧
      Complete 4096 (some (ascii "t")) (some (ascii "b")) out := by
  have complete := (request_complete_iff (0,0) (Nat.le_refl 4096) (ascii "POST") (ascii "/") (some (ascii "h")) (some (ascii "t"))
    (some (ascii "b"))).mpr (by
      rintro h token - same long
      obtain rfl := Option.some.inj same
      exact absurd long (by decide))
  have literal : (credentials (some (ascii "t"))).flatMap Field.bytes =
      (prefixed 0x20 0x07 13 ++ ascii "authorization") ++ (prefixed 0x00 0x7F 8 ++ ascii "Bearer t") := by decide +kernel
  have size : (fieldBlock (requestWith (ascii "POST") (ascii "/") (ascii "h") (some (ascii "t")))).length = 48 := by
    rw [requestWith,fieldBlock_append,List.length_append,fieldBlock_length,literal,List.length_append,List.length_append,
      List.length_append,prefixed_length,prefixed_length,if_neg (by decide),show 13 - (0x07 : UInt8).toNat = 6 from rfl,groups]
    decide +kernel
  have fits : Fits 4096 (fieldBlock (requestWith (ascii "POST") (ascii "/") (ascii "h") (some (ascii "t")))).length (ascii "b") := by
    rw [size]
    exact ⟨by decide,fun _ => by decide,fun _ => by decide⟩
  exact ⟨_,(buildAuthenticatedRequest_iff (0,0) (Nat.le_refl 4096) _ _ _ _ _ _).mpr ⟨fits,rfl⟩,
    complete _ ((buildAuthenticatedRequest_iff (0,0) (Nat.le_refl 4096) _ _ _ _ _ _).mpr ⟨fits,rfl⟩)⟩

theorem long_token_dropped : ∃ out,
    buildAuthenticatedRequest (0,0) 4096 (ascii "GET") (ascii "/") (some (ascii "h")) (some (List.replicate 505 97)) none = some out ∧
      ¬ Complete 4096 (some (List.replicate 505 97)) none out := by
  apply sent_without_credentials (0,0) (by decide)
  · rw [List.length_replicate]
  · exact ⟨by decide,fun some_body => absurd rfl some_body,fun some_body => absurd rfl some_body⟩

end WarpLoop.H3
