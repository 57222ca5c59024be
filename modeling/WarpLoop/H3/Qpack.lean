import WarpLoop.Lib.Wire

/-! The field block of a request: the encoders of
flow-toolchain/thirdparty/picoquic/picohttp/h3zero.c, and what the block says. The bytes before
the pointer are a list, whose end is the pointer; `none` is the null pointer. -/
namespace WarpLoop.H3
open Lib.Wire

abbrev Bytes := List UInt8

def ascii (text : String) : Bytes := text.toList.map (fun c => UInt8.ofNat c.toNat)

def h3zeroQpackCodeGet : Nat := 17

def h3zeroQpackCodePost : Nat := 20

def h3zeroQpackCodePath : Nat := 1

def h3zeroQpackAuthority : Nat := 0

def h3zeroQpackSchemeHttps : Nat := 23

def h3zeroQpackRange : Nat := 55

def h3zeroQpackUserAgent : Nat := 95

def h3zeroUserAgentString : Bytes := ascii "H3Zero/1.0"

inductive ContentType where
  | none
  | notSupported
  | textHtml
  | textPlain
  | imageGif
  | imageJpeg
  | imagePng
  | dnsMessage
  | javascript
  | json
  | wwwFormUrlencoded
  | textCss
  deriving DecidableEq,Repr

/-- The rows of the static table whose header is the content type. -/
def qpackStaticContentTypes : List (Nat × ContentType) :=
  [(44,.dnsMessage),(45,.javascript),(46,.json),(47,.wwwFormUrlencoded),(48,.imageGif),(49,.imageJpeg),(50,.imagePng),
    (51,.textCss),(52,.textHtml),(53,.textPlain),(54,.textPlain)]

/-- The byte at the pointer holds the tag already. -/
def h3zeroQpackIntEncode (bytes : Bytes) (bytesMax : Nat) (tag mask : UInt8) (val : Nat) : Option Bytes :=
  if bytesMax ≤ bytes.length then none
  else if val < mask.toNat then some (bytes ++ [tag ||| UInt8.ofNat val])
  else loop (bytesMax - (bytes.length + 1)) (bytes ++ [tag ||| mask]) (val - mask.toNat)
where
  -- the first argument counts the bytes that are left before `bytesMax`
  loop : Nat → Bytes → Nat → Option Bytes
    | 0,_,_ => none
    | left + 1,bytes,val =>
      if 0x80 ≤ val then loop left (bytes ++ [0x80 ||| UInt8.ofNat (val &&& 0x7F)]) (val >>> 7)
      else some (bytes ++ [UInt8.ofNat val])

def h3zeroQpackCodeEncode (bytes : Option Bytes) (bytesMax : Nat) (tag mask : UInt8) (code : Nat) : Option Bytes :=
  bytes.bind fun bytes =>
    if bytes.length + 1 > bytesMax then none else h3zeroQpackIntEncode bytes bytesMax tag mask code

/-- The copy that ends an encoder of a string. -/
def copied (bytes : Option Bytes) (bytesMax : Nat) (val : Bytes) : Option Bytes :=
  bytes.bind fun bytes =>
    if val.length > 0 then
      if bytes.length + val.length > bytesMax then none else some (bytes ++ val)
    else some bytes

def h3zeroQpackLiteralPlusRefEncode (bytes : Option Bytes) (bytesMax code : Nat) (val : Bytes) : Option Bytes :=
  let bytes := h3zeroQpackCodeEncode bytes bytesMax 0x50 0x0F code
  let bytes := h3zeroQpackCodeEncode bytes bytesMax 0x00 0x7F val.length
  copied bytes bytesMax val

def h3zeroQpackNameEncode (bytes : Option Bytes) (bytesMax : Nat) (tag mask : UInt8) (name : Bytes) : Option Bytes :=
  bytes.bind fun bytes =>
    if bytes.length + 1 > bytesMax then none
    else copied (h3zeroQpackIntEncode bytes bytesMax tag mask name.length) bytesMax name

def h3zeroQpackLiteralPlusNameEncode (bytes : Option Bytes) (bytesMax : Nat) (name val : Bytes) : Option Bytes :=
  let bytes := h3zeroQpackNameEncode bytes bytesMax 0x20 0x07 name
  let bytes := h3zeroQpackCodeEncode bytes bytesMax 0x00 0x7F val.length
  copied bytes bytesMax val

def h3zeroEncodeContentType (bytes : Option Bytes) (bytesMax : Nat) (contentType : ContentType) : Option Bytes :=
  bytes.bind fun bytes =>
    match qpackStaticContentTypes.find? (fun row => row.2 == contentType) with
    | none => none
    | some row => h3zeroQpackCodeEncode (some bytes) bytesMax 0xC0 0x3F row.1

/-- What both kinds of request begin with, up to the user agent. -/
def pseudoHeaders (bytes : Option Bytes) (bytesMax methodCode : Nat) (path range : Bytes) (host uaString : Option Bytes) : Option Bytes :=
  bytes.bind fun bytes =>
    if bytes.length + 2 > bytesMax then none
    else
      let bytes := some (bytes ++ [0,0])
      let bytes := h3zeroQpackCodeEncode bytes bytesMax 0xC0 0x3F methodCode
      let bytes := h3zeroQpackCodeEncode bytes bytesMax 0xC0 0x3F h3zeroQpackSchemeHttps
      let bytes := h3zeroQpackLiteralPlusRefEncode bytes bytesMax h3zeroQpackCodePath path
      let bytes := match host with
        | none => bytes
        | some host => h3zeroQpackLiteralPlusRefEncode bytes bytesMax h3zeroQpackAuthority host
      let bytes := if range.length > 0 then h3zeroQpackLiteralPlusRefEncode bytes bytesMax h3zeroQpackRange range else bytes
      match uaString with
      | none => bytes
      | some uaString => h3zeroQpackLiteralPlusRefEncode bytes bytesMax h3zeroQpackUserAgent uaString

def h3zeroCreateRequestHeaderFrameEx (bytes : Option Bytes) (bytesMax : Nat) (path range : Bytes) (host uaString : Option Bytes) : Option Bytes :=
  pseudoHeaders bytes bytesMax h3zeroQpackCodeGet path range host uaString

def h3zeroCreatePostHeaderFrameEx (bytes : Option Bytes) (bytesMax : Nat) (path range : Bytes) (host : Option Bytes)
    (contentType : ContentType) (uaString : Option Bytes) : Option Bytes :=
  h3zeroEncodeContentType (pseudoHeaders bytes bytesMax h3zeroQpackCodePost path range host uaString) bytesMax contentType

def h3zeroCreatePostHeaderFrame (bytes : Option Bytes) (bytesMax : Nat) (path : Bytes) (host : Option Bytes)
    (contentType : ContentType) : Option Bytes :=
  h3zeroCreatePostHeaderFrameEx bytes bytesMax path [] host contentType (some h3zeroUserAgentString)

/-! What each encoder writes. -/

inductive Field where
  | indexed (index : Nat)
  | named (index : Nat) (value : Bytes)
  | literal (name value : Bytes)
  deriving DecidableEq,Repr

def Field.bytes : Field → Bytes
  | .indexed index => prefixed 0xC0 0x3F index
  | .named index value => prefixed 0x50 0x0F index ++ (prefixed 0x00 0x7F value.length ++ value)
  | .literal name value => prefixed 0x20 0x07 name.length ++ name ++ (prefixed 0x00 0x7F value.length ++ value)

theorem loop_eq {bytesMax left : Nat} {bytes : Bytes} (room : bytes.length + left = bytesMax) (val : Nat) :
    h3zeroQpackIntEncode.loop left bytes val = put bytesMax (continued val) bytes := by
  induction left generalizing bytes val with
  | zero =>
    have last := List.length_pos_iff.mpr (continued_ne_nil val)
    rw [h3zeroQpackIntEncode.loop,put,if_neg (by omega)]
  | succ left ih =>
    rw [h3zeroQpackIntEncode.loop,continued]
    by_cases long : 0x80 ≤ val
    · rw [if_pos long,if_neg (Nat.not_lt.mpr long),ih (by rw [List.length_append,List.length_singleton]; omega),put_append,
        List.singleton_append]
    · rw [if_neg long,if_pos (Nat.not_le.mp long),put,if_pos (by rw [List.length_singleton]; omega)]

theorem h3zeroQpackIntEncode_eq (bytes : Bytes) (bytesMax : Nat) (tag mask : UInt8) (val : Nat) :
    h3zeroQpackIntEncode bytes bytesMax tag mask val = put bytesMax (prefixed tag mask val) bytes := by
  unfold h3zeroQpackIntEncode prefixed
  by_cases full : bytesMax ≤ bytes.length
  · rw [if_pos full,put,if_neg]
    split
    · rw [List.length_singleton]
      omega
    · rw [List.length_cons]
      omega
  · rw [if_neg full]
    split
    · rw [put,if_pos (by rw [List.length_singleton]; omega)]
    · rw [@loop_eq bytesMax _ _ (by rw [List.length_append,List.length_singleton]; omega),put_append,List.singleton_append]

theorem h3zeroQpackCodeEncode_eq (bytes : Option Bytes) (bytesMax : Nat) (tag mask : UInt8) (code : Nat) :
    h3zeroQpackCodeEncode bytes bytesMax tag mask code = bytes.bind (put bytesMax (prefixed tag mask code)) := by
  unfold h3zeroQpackCodeEncode
  congr 1
  funext bytes
  rw [h3zeroQpackIntEncode_eq]
  split
  case isTrue full =>
    obtain ⟨low,_,rest,head⟩ := prefixed_head tag mask code
    rw [put,head,List.length_cons,if_neg (by omega)]
  case isFalse => rfl

theorem bind_put (bytes : Option Bytes) (bytesMax : Nat) (first second : Bytes) :
    (bytes.bind (put bytesMax first)).bind (put bytesMax second) = bytes.bind (put bytesMax (first ++ second)) := by
  cases bytes with
  | none => rfl
  | some bytes => exact put_bind first second

theorem copied_put (bytes : Option Bytes) (bytesMax : Nat) (piece val : Bytes) :
    copied (bytes.bind (put bytesMax piece)) bytesMax val = bytes.bind (put bytesMax (piece ++ val)) := by
  rw [← bind_put,copied]
  cases reached : bytes.bind (put bytesMax piece) with
  | none => rfl
  | some written =>
    obtain ⟨start,_,fits⟩ := Option.bind_eq_some_iff.mp reached
    have short := (put_eq_some fits).2
    rw [Option.bind_some,Option.bind_some,put]
    by_cases empty : val = []
    · subst empty
      rw [List.length_nil,if_neg (Nat.lt_irrefl 0),if_pos (by omega),List.append_nil]
    · rw [if_pos (List.length_pos_iff.mpr empty)]
      by_cases room : written.length + val.length ≤ bytesMax
      · rw [if_neg (by omega),if_pos room]
      · rw [if_pos (by omega),if_neg room]

theorem h3zeroQpackLiteralPlusRefEncode_eq (bytes : Option Bytes) (bytesMax code : Nat) (val : Bytes) :
    h3zeroQpackLiteralPlusRefEncode bytes bytesMax code val = bytes.bind (put bytesMax (Field.named code val).bytes) := by
  rw [h3zeroQpackLiteralPlusRefEncode,h3zeroQpackCodeEncode_eq,h3zeroQpackCodeEncode_eq,bind_put,copied_put,List.append_assoc,
    Field.bytes]

theorem h3zeroQpackNameEncode_eq (bytes : Option Bytes) (bytesMax : Nat) (tag mask : UInt8) (name : Bytes) :
    h3zeroQpackNameEncode bytes bytesMax tag mask name = bytes.bind (put bytesMax (prefixed tag mask name.length ++ name)) := by
  cases bytes with
  | none => rfl
  | some bytes =>
    have same := copied_put (some bytes) bytesMax (prefixed tag mask name.length) name
    rw [Option.bind_some] at same
    rw [← same,← h3zeroQpackIntEncode_eq,h3zeroQpackNameEncode,Option.bind_some]
    split
    case isTrue full =>
      rw [h3zeroQpackIntEncode,if_pos (by omega)]
      rfl
    case isFalse => rfl

theorem h3zeroQpackLiteralPlusNameEncode_eq (bytes : Option Bytes) (bytesMax : Nat) (name val : Bytes) :
    h3zeroQpackLiteralPlusNameEncode bytes bytesMax name val = bytes.bind (put bytesMax (Field.literal name val).bytes) := by
  rw [h3zeroQpackLiteralPlusNameEncode,h3zeroQpackNameEncode_eq,h3zeroQpackCodeEncode_eq,bind_put,copied_put,List.append_assoc,
    Field.bytes]

/-- The fields of a request in the order in which they are written. -/
def requestFields (methodCode : Nat) (path range : Bytes) (host uaString : Option Bytes) : List Field :=
  .indexed methodCode :: .indexed h3zeroQpackSchemeHttps :: .named h3zeroQpackCodePath path ::
    ((host.toList.map (.named h3zeroQpackAuthority)) ++ (if range.length > 0 then [.named h3zeroQpackRange range] else []) ++
      uaString.toList.map (.named h3zeroQpackUserAgent))

theorem pseudoHeaders_eq (bytes : Option Bytes) (bytesMax methodCode : Nat) (path range : Bytes) (host uaString : Option Bytes) :
    pseudoHeaders bytes bytesMax methodCode path range host uaString =
      bytes.bind (put bytesMax ([0,0] ++ (requestFields methodCode path range host uaString).flatMap Field.bytes)) := by
  cases bytes with
  | none => rfl
  | some bytes =>
    have indexed (bytes : Option Bytes) (index : Nat) :
        h3zeroQpackCodeEncode bytes bytesMax 0xC0 0x3F index = bytes.bind (put bytesMax (Field.indexed index).bytes) :=
      h3zeroQpackCodeEncode_eq bytes bytesMax 0xC0 0x3F index
    rw [pseudoHeaders,Option.bind_some,Option.bind_some]
    split
    case isTrue full => rw [put,if_neg (by rw [List.length_append,List.length_cons,List.length_singleton]; omega)]
    case isFalse room =>
      have start : some (bytes ++ [0,0]) = (some bytes).bind (put bytesMax [0,0]) := by
        rw [Option.bind_some,put,if_pos (by rw [List.length_cons,List.length_singleton]; omega)]
      rw [start]
      by_cases ranged : range.length > 0 <;> cases host <;> cases uaString <;>
        simp [indexed,h3zeroQpackLiteralPlusRefEncode_eq,put_bind,requestFields,ranged]

theorem h3zeroEncodeContentType_eq (bytes : Option Bytes) (bytesMax : Nat) {contentType : ContentType} {row : Nat × ContentType}
    (found : qpackStaticContentTypes.find? (fun row => row.2 == contentType) = some row) :
    h3zeroEncodeContentType bytes bytesMax contentType = bytes.bind (put bytesMax (Field.indexed row.1).bytes) := by
  cases bytes with
  | none => rfl
  | some bytes =>
    rw [h3zeroEncodeContentType,Option.bind_some,found,Field.bytes]
    exact h3zeroQpackCodeEncode_eq (some bytes) bytesMax 0xC0 0x3F row.1

/-! What a block says to its reader. -/

/-- A string without Huffman coding. -/
def readString : Bytes → Option (Bytes × Bytes)
  | [] => none
  | byte :: rest =>
    if byte &&& 0x80 = 0 then
      (readPrefixed 0x7F (byte :: rest)).bind fun read =>
        if read.1 ≤ read.2.length then some (read.2.take read.1,read.2.drop read.1) else none
    else none

def readField : Bytes → Option (Field × Bytes)
  | [] => none
  | byte :: rest =>
    if byte &&& 0xC0 = 0xC0 then (readPrefixed 0x3F (byte :: rest)).map (fun read => (.indexed read.1,read.2))
    else if byte &&& 0xD0 = 0x50 then
      (readPrefixed 0x0F (byte :: rest)).bind fun read =>
        (readString read.2).map (fun value => (.named read.1 value.1,value.2))
    else if byte &&& 0xE8 = 0x20 then
      (readPrefixed 0x07 (byte :: rest)).bind fun read =>
        if read.1 ≤ read.2.length then
          (readString (read.2.drop read.1)).map (fun value => (.literal (read.2.take read.1) value.1,value.2))
        else none
    else none

inductive Fields : Bytes → List Field → Prop
  | nil : Fields [] []
  | cons {bytes rest field fields} : readField bytes = some (field,rest) → Fields rest fields → Fields bytes (field :: fields)

/-- A field block that refers to the static table only. -/
def FieldBlock (block : Bytes) (fields : List Field) : Prop := ∃ rest, block = [0,0] ++ rest ∧ Fields rest fields

theorem Fields.unique {bytes : Bytes} {fields others : List Field} (first : Fields bytes fields) (second : Fields bytes others) :
    fields = others := by
  induction first generalizing others with
  | nil =>
    cases second with
    | nil => rfl
    | cons read _ => exact absurd read (by simp [readField])
  | cons read _ ih =>
    cases second with
    | nil => exact absurd read (by simp [readField])
    | cons read' rest' =>
      rw [read] at read'
      obtain ⟨rfl,rfl⟩ := Prod.mk.inj (Option.some.inj read')
      rw [ih rest']

theorem FieldBlock.unique {block : Bytes} {fields others : List Field} (first : FieldBlock block fields)
    (second : FieldBlock block others) : fields = others := by
  obtain ⟨rest,rfl,read⟩ := first
  obtain ⟨rest',same,read'⟩ := second
  rw [List.append_cancel_left same] at read
  exact read.unique read'

theorem readString_append (value rest : Bytes) :
    readString (prefixed 0x00 0x7F value.length ++ value ++ rest) = some (value,rest) := by
  have tagged : ∀ low ≤ 0x7F, (0x00 ||| UInt8.ofNat low) &&& 0x80 = 0 := by decide
  have whole := readPrefixed_append (show Prefix 0x00 0x7F from ⟨rfl,by decide⟩) value.length (value ++ rest)
  obtain ⟨low,small,tail,head⟩ := prefixed_head 0x00 0x7F value.length
  rw [List.append_assoc]
  rw [head,List.cons_append] at whole ⊢
  rw [readString,if_pos (tagged low small),whole,Option.bind_some]
  dsimp only
  rw [if_pos (by rw [List.length_append]; omega),List.take_left,List.drop_left]

/-- Each kind of field is told by the bits of its tag. -/
theorem readField_bytes (field : Field) (rest : Bytes) : readField (field.bytes ++ rest) = some (field,rest) := by
  cases field with
  | indexed index =>
    have tagged : ∀ low ≤ 0x3F, (0xC0 ||| UInt8.ofNat low) &&& 0xC0 = 0xC0 := by decide
    have whole := readPrefixed_append (show Prefix 0xC0 0x3F from ⟨rfl,by decide⟩) index rest
    obtain ⟨low,small,tail,head⟩ := prefixed_head 0xC0 0x3F index
    rw [Field.bytes]
    rw [head,List.cons_append] at whole ⊢
    rw [readField,if_pos (tagged low small),whole,Option.map_some]
  | named index value =>
    have tagged : ∀ low ≤ 0x0F, (0x50 ||| UInt8.ofNat low) &&& 0xC0 ≠ 0xC0 ∧ (0x50 ||| UInt8.ofNat low) &&& 0xD0 = 0x50 := by decide
    have whole := readPrefixed_append (show Prefix 0x50 0x0F from ⟨rfl,by decide⟩) index
      (prefixed 0x00 0x7F value.length ++ value ++ rest)
    obtain ⟨low,small,tail,head⟩ := prefixed_head 0x50 0x0F index
    obtain ⟨first,second⟩ := tagged low small
    rw [Field.bytes,List.append_assoc]
    rw [head,List.cons_append] at whole ⊢
    rw [readField,if_neg first,if_pos second,whole,Option.bind_some,readString_append,Option.map_some]
  | literal name value =>
    have tagged : ∀ low ≤ 0x07, (0x20 ||| UInt8.ofNat low) &&& 0xC0 ≠ 0xC0 ∧ (0x20 ||| UInt8.ofNat low) &&& 0xD0 ≠ 0x50 ∧
        (0x20 ||| UInt8.ofNat low) &&& 0xE8 = 0x20 := by decide
    have whole := readPrefixed_append (show Prefix 0x20 0x07 from ⟨rfl,by decide⟩) name.length
      (name ++ (prefixed 0x00 0x7F value.length ++ value ++ rest))
    obtain ⟨low,small,tail,head⟩ := prefixed_head 0x20 0x07 name.length
    obtain ⟨first,second,third⟩ := tagged low small
    rw [Field.bytes,List.append_assoc,List.append_assoc]
    rw [head,List.cons_append] at whole ⊢
    rw [readField,if_neg first,if_neg second,if_pos third,whole,Option.bind_some]
    dsimp only
    rw [if_pos (by rw [List.length_append]; omega),List.drop_left,List.take_left,readString_append,Option.map_some]

theorem FieldBlock.of_fields (fields : List Field) : FieldBlock ([0,0] ++ fields.flatMap Field.bytes) fields := by
  refine ⟨_,rfl,?_⟩
  induction fields with
  | nil => exact .nil
  | cons field fields ih => exact .cons (readField_bytes field _) ih

end WarpLoop.H3
