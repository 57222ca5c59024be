import Mathlib.Algebra.Group.Nat.Defs
import Mathlib.Algebra.Group.Int.Defs
import WarpLoop.Sketch.Codec

/-! The parser of one stream of the fanout server
(examples/picoquic_fanout_server.actor.cpp): its buffer and mode flags, the header
line, and one round of the loop in `pumpStream`. The handlers belong to the server;
a round only says which of them it calls and with what. -/
namespace WarpLoop.Bridge
open Sketch (Bytes)

def kEntityPacketSize : Nat := 100

def kMaxSketchFrame : Nat := 2^20

def newline : UInt8 := 10
def space : UInt8 := 32
def minus : UInt8 := 45

/-- What stands before the first `c` and what stands behind it. -/
def cut (c : UInt8) : Bytes → Option (Bytes × Bytes)
  | [] => none
  | b::rest =>
    if b = c then some ([],rest)
    else
      match cut c rest with
      | none => none
      | some (before,after) => some (b::before,after)

structure Motion where
  x : Int64
  y : Int64
  z : Int64
  vx : Int64
  vy : Int64
  vz : Int64
deriving DecidableEq, Repr

def Motion.zero : Motion := ⟨0,0,0,0,0,0⟩

def isDigit (b : UInt8) : Bool := 48 ≤ b && b ≤ 57

/-- `std::from_chars` for a signed decimal: the value and the unread rest. No
value is stored when there are no digits or the number leaves the 64-bit range. -/
def fromChars (p : Bytes) : Option (Int64 × Bytes) :=
  let (negative,p) : Bool × Bytes := match p with
    | b::rest => if b = minus then (true,rest) else (false,p)
    | [] => (false,p)
  let digits := p.takeWhile isDigit
  if digits = [] then none
  else
    let n : Int := digits.foldl (fun n d => n * 10 + (d.toNat - 48 : Nat)) 0
    let v := if negative then -n else n
    if -2^63 ≤ v ∧ v < 2^63 then some (Int64.ofInt v,p.dropWhile isDigit) else none

def Motion.fields : List (Motion → Int64 → Motion) :=
  [fun m v => {m with x := v},fun m v => {m with y := v},fun m v => {m with z := v},
    fun m v => {m with vx := v},fun m v => {m with vy := v},fun m v => {m with vz := v}]

/-- Parses the fields one by one; those parsed before a failure stay written. -/
def parseFields : List (Motion → Int64 → Motion) → Bytes → Motion → Bool × Motion
  | [],_,m => (true,m)
  | set::later,p,m =>
    match fromChars p with
    | none => (false,m)
    | some (v,rest) =>
      if later.isEmpty then (rest.isEmpty,set m v)
      else
        match rest with
        | [] => (false,set m v)
        | b::p => if b = space then parseFields later p (set m v) else (false,set m v)

def parseZpbFields (rest : Bytes) (m : Motion) : Bool × Motion := parseFields Motion.fields rest m

inductive Verb
  | sub
  | pub
  | skb
  | zpb
  | unknown
deriving DecidableEq, Repr

def Verb.ofBytes (verb : Bytes) : Verb :=
  if verb = [83,85,66] then .sub
  else if verb = [80,85,66] then .pub
  else if verb = [83,75,66] then .skb
  else if verb = [90,80,66] then .zpb
  else .unknown

structure StreamState where
  buf : Bytes := []
  headerParsed : Bool := false
  isPub : Bool := false
  isSketch : Bool := false
  isZonePub : Bool := false
  topic : Bytes := []
  roomId : UInt64 := 0
  motion : Motion := Motion.zero
deriving DecidableEq, Repr

/-- A call of a handler with the arguments that come from the stream. -/
inductive Call
  | sub (topic : Bytes)
  | sketchSub (topic : Bytes)
  | sketchFrame (roomId : UInt64) (frame : Bytes)
  | pub (topic payload : Bytes)
  | zoneSub
  | zonePub (motion : Motion) (payload : Bytes)
deriving DecidableEq, Repr

/-- How one round of the loop ends: it returns with nothing consumed, returns
after consuming a header line, or goes round again. -/
inductive Round
  | wait
  | stop (st : StreamState)
  | more (call : Option Call) (st : StreamState)
deriving DecidableEq, Repr

/-- The header branch, on a complete header line and what follows it. -/
def parseHeader (st : StreamState) (header rest : Bytes) : Round :=
  match cut space header with
  | none => .stop {st with buf := rest}
  | some (verb,topic) =>
    let st := {st with buf := rest, topic := topic, headerParsed := true}
    match Verb.ofBytes verb with
    | .sub => .more (some (.sub topic)) {st with isPub := false}
    | .pub => .more none {st with isPub := true}
    | .skb => .more (some (.sketchSub topic)) {st with isSketch := true}
    | .zpb =>
      match parseZpbFields topic st.motion with
      | (true,motion) => .more (some .zoneSub) {st with motion := motion, isZonePub := true}
      | (false,motion) => .stop {st with motion := motion}
    | .unknown => .stop st

/-- The sketch branch: a frame is its length in four bytes and that many bytes. -/
def takeFrame (st : StreamState) : Round :=
  match st.buf with
  | b0::b1::b2::b3::body =>
    let frameLen := b0.toNat ||| (b1.toNat <<< 8) ||| (b2.toNat <<< 16) ||| (b3.toNat <<< 24)
    if frameLen > kMaxSketchFrame then .wait
    else if body.length < frameLen then .wait
    else .more (some (.sketchFrame st.roomId (body.take frameLen))) {st with buf := body.drop frameLen}
  | _ => .wait

/-- The payload branches: one packet, handed to `call`, and then a fresh header. -/
def takePacket (st : StreamState) (call : Bytes → Call) : Round :=
  if st.buf.length < kEntityPacketSize then .wait
  else .more (some (call (st.buf.take kEntityPacketSize)))
    {st with buf := st.buf.drop kEntityPacketSize, headerParsed := false}

def pumpRound (st : StreamState) : Round :=
  if !st.headerParsed then
    match cut newline st.buf with
    | none => .wait
    | some (header,rest) => parseHeader st header rest
  else if st.isSketch then takeFrame st
  else if st.isPub then takePacket st (.pub st.topic)
  else if st.isZonePub then takePacket st (.zonePub st.motion)
  else .wait

/-- The room that `handleSketchSub` stores in the stream it was called for. -/
def StreamState.assign (st : StreamState) : Option UInt64 → StreamState
  | none => st
  | some roomId => {st with roomId := roomId}

/-- A round that consumed something: the state before it and the call it made. -/
structure Visit where
  before : StreamState
  call : Option Call
deriving DecidableEq, Repr

variable {ω : Type}

/-- The loop of `pumpStream`, over any world that the handlers act on. -/
def pumpStream (handle : ω → Call → ω × Option UInt64) : Nat → ω → StreamState → ω × StreamState × List Visit
  | 0,w,st => (w,st,[])
  | fuel+1,w,st =>
    match pumpRound st with
    | .wait => (w,st,[])
    | .stop st' => (w,st',[⟨st,none⟩])
    | .more none st' =>
      let later := pumpStream handle fuel w st'
      (later.1,later.2.1,⟨st,none⟩::later.2.2)
    | .more (some call) st' =>
      let handled := handle w call
      let later := pumpStream handle fuel handled.1 (st'.assign handled.2)
      (later.1,later.2.1,⟨st,some call⟩::later.2.2)

/-- The bytes of one callback: they are appended and pumped. Every round consumes
at least one byte, so the length of the buffer bounds the rounds. -/
def receive (handle : ω → Call → ω × Option UInt64) (w : ω) (st : StreamState) (bytes : Bytes) :
    ω × StreamState × List Visit :=
  pumpStream handle (st.buf ++ bytes).length w {st with buf := st.buf ++ bytes}

theorem cut_eq_none (c : UInt8) (b : Bytes) : cut c b = none ↔ c ∉ b := by
  induction b with
  | nil => simp [cut]
  | cons first rest ih =>
    unfold cut
    by_cases same : first = c
    · simp [same]
    · rw [if_neg same,List.mem_cons,not_or,← ih]
      have apart : ¬ c = first := fun equal => same equal.symm
      cases cut c rest <;> simp [apart]

theorem cut_eq_some (c : UInt8) (b before after : Bytes) :
    cut c b = some (before,after) ↔ b = before ++ c::after ∧ c ∉ before := by
  induction b generalizing before with
  | nil => simp [cut]
  | cons first rest ih =>
    unfold cut
    by_cases same : first = c
    · subst first
      rw [if_pos rfl]
      cases before with
      | nil => simp [eq_comm]
      | cons head tail => simp +contextual [eq_comm]
    · rw [if_neg same]
      cases before with
      | nil => cases cut c rest <;> simp [same]
      | cons head tail =>
        have later := ih tail
        cases found : cut c rest with
        | none =>
          rw [found] at later
          simp only [reduceCtorEq,false_iff,not_and,not_not] at later ⊢
          intro split
          obtain ⟨rfl,rest⟩ := List.cons.inj split
          exact List.mem_cons_of_mem _ (later rest)
        | some pair =>
          obtain ⟨x,y⟩ := pair
          rw [found] at later
          simp only [Option.some.injEq,Prod.mk.injEq,List.cons.injEq,List.cons_append,List.mem_cons,not_or] at later ⊢
          constructor
          · rintro ⟨⟨rfl,rfl⟩,rfl⟩
            obtain ⟨split,absent⟩ := later.mp ⟨rfl,rfl⟩
            exact ⟨⟨rfl,split⟩,fun equal => same equal.symm,absent⟩
          · rintro ⟨⟨rfl,split⟩,-,absent⟩
            obtain ⟨rfl,rfl⟩ := later.mpr ⟨split,absent⟩
            exact ⟨⟨rfl,rfl⟩,rfl⟩

def StreamState.withBuf (st : StreamState) (buf : Bytes) : StreamState := {st with buf := buf}

def Round.state? : Round → Option StreamState
  | .wait => none
  | .stop st => some st
  | .more _ st => some st

def Round.withBuf (rest : Bytes) : Round → Round
  | .wait => .wait
  | .stop st => .stop (st.withBuf rest)
  | .more call st => .more call (st.withBuf rest)

private theorem parseHeader_withBuf (st : StreamState) (header rest buf : Bytes) :
    parseHeader (st.withBuf buf) header rest = (parseHeader st header []).withBuf rest := by
  unfold parseHeader
  cases cut space header with
  | none => rfl
  | some pair =>
    dsimp only
    cases Verb.ofBytes pair.1 with
    | zpb => rcases h : parseZpbFields pair.2 st.motion with ⟨_ | _,_⟩ <;> simp [StreamState.withBuf,h,Round.withBuf]
    | _ => rfl

theorem parseHeader_buf {st st' : StreamState} {header rest : Bytes}
    (after : (parseHeader st header rest).state? = some st') : st'.buf = rest := by
  have same := parseHeader_withBuf st header rest st.buf
  change parseHeader st header rest = _ at same
  rw [same] at after
  cases round : parseHeader st header [] <;> simp only [round,Round.withBuf,Round.state?] at after
  · cases after
  · cases after; rfl
  · cases after; rfl

private theorem takePacket_reads {st st' : StreamState} {call : Bytes → Call}
    (after : (takePacket st call).state? = some st') :
    ∃ p, p ≠ [] ∧ st.buf = p ++ st'.buf ∧
      ∀ rest, takePacket (st.withBuf (p ++ rest)) call = (takePacket st call).withBuf rest := by
  unfold takePacket at after ⊢
  by_cases short : st.buf.length < kEntityPacketSize
  · simp [short,Round.state?] at after
  · simp only [short,if_false,Round.state?,Option.some.injEq] at after
    subst st'
    have length : (st.buf.take kEntityPacketSize).length = kEntityPacketSize := by
      rw [List.length_take]; omega
    refine ⟨st.buf.take kEntityPacketSize,?_,(List.take_append_drop _ _).symm,?_⟩
    · intro empty
      rw [empty] at length
      simp [kEntityPacketSize] at length
    · intro rest
      have enough : ¬ (st.buf.take kEntityPacketSize ++ rest).length < kEntityPacketSize := by
        rw [List.length_append,length]; omega
      simp only [StreamState.withBuf,enough,short,if_false,Round.withBuf]
      rw [List.take_left' length,List.drop_left' length]

private theorem takeFrame_reads {st st' : StreamState} (after : (takeFrame st).state? = some st') :
    ∃ p, p ≠ [] ∧ st.buf = p ++ st'.buf ∧
      ∀ rest, takeFrame (st.withBuf (p ++ rest)) = (takeFrame st).withBuf rest := by
  unfold takeFrame at after ⊢
  split at after
  case h_2 => cases after
  rename_i b0 b1 b2 b3 body buf
  dsimp only at after
  generalize frame : b0.toNat ||| (b1.toNat <<< 8) ||| (b2.toNat <<< 16) ||| (b3.toNat <<< 24) = frameLen at after
  split at after
  · cases after
  rename_i large
  split at after
  · cases after
  rename_i short
  simp only [Round.state?,Option.some.injEq] at after
  subst st'
  have length : (body.take frameLen).length = frameLen := by
    rw [List.length_take]; omega
  refine ⟨b0::b1::b2::b3::body.take frameLen,by simp,?_,?_⟩
  · rw [buf]
    simp
  · intro rest
    have enough : ¬ (body.take frameLen ++ rest).length < frameLen := by
      rw [List.length_append,length]; omega
    simp only [StreamState.withBuf,List.cons_append,frame,large,short,enough,if_false,Round.withBuf]
    rw [List.take_left' length,List.drop_left' length]

theorem pumpRound_header {st : StreamState} (fresh : st.headerParsed = false) {header rest : Bytes}
    (line : cut newline st.buf = some (header,rest)) : pumpRound st = parseHeader st header rest := by
  simp [pumpRound,fresh,line]

theorem pumpRound_open {st : StreamState} (fresh : st.headerParsed = false) (none : cut newline st.buf = none) :
    pumpRound st = .wait := by
  simp [pumpRound,fresh,none]

theorem pumpRound_frame {st : StreamState} (parsed : st.headerParsed = true) (sketch : st.isSketch = true) :
    pumpRound st = takeFrame st := by
  simp [pumpRound,parsed,sketch]

theorem pumpRound_pub {st : StreamState} (parsed : st.headerParsed = true) (plain : st.isSketch = false)
    (isPub : st.isPub = true) : pumpRound st = takePacket st (.pub st.topic) := by
  simp [pumpRound,parsed,plain,isPub]

theorem pumpRound_zonePub {st : StreamState} (parsed : st.headerParsed = true) (plain : st.isSketch = false)
    (notPub : st.isPub = false) (isZonePub : st.isZonePub = true) :
    pumpRound st = takePacket st (.zonePub st.motion) := by
  simp [pumpRound,parsed,plain,notPub,isZonePub]

theorem pumpRound_sub {st : StreamState} (parsed : st.headerParsed = true) (plain : st.isSketch = false)
    (notPub : st.isPub = false) (notZone : st.isZonePub = false) : pumpRound st = .wait := by
  simp [pumpRound,parsed,plain,notPub,notZone]

/-- A round that consumes something reads a non-empty part of the buffer, and
that part alone decides how the round ends. -/
theorem pumpRound_reads {st st' : StreamState} (after : (pumpRound st).state? = some st') :
    ∃ p, p ≠ [] ∧ st.buf = p ++ st'.buf ∧
      ∀ rest, pumpRound (st.withBuf (p ++ rest)) = (pumpRound st).withBuf rest := by
  cases parsed : st.headerParsed with
  | false =>
    cases line : cut newline st.buf with
    | none => simp [pumpRound,parsed,line,Round.state?] at after
    | some pair =>
      obtain ⟨header,left⟩ := pair
      obtain ⟨split,absent⟩ := (cut_eq_some _ _ _ _).mp line
      have round := pumpRound_header parsed line
      rw [round] at after
      have buf := parseHeader_buf after
      refine ⟨header ++ [newline],by simp,by rw [split,buf]; simp,?_⟩
      intro rest
      have again : cut newline (header ++ [newline] ++ rest) = some (header,rest) :=
        (cut_eq_some _ _ _ _).mpr ⟨by simp,absent⟩
      rw [@pumpRound_header (st.withBuf (header ++ [newline] ++ rest)) parsed _ _ again,round,
        parseHeader_withBuf]
      have same := parseHeader_withBuf st header left st.buf
      change parseHeader st header left = _ at same
      rw [same]
      cases parseHeader st header [] <;> rfl
  | true =>
    cases sketch : st.isSketch with
    | true =>
      rw [pumpRound_frame parsed sketch] at after ⊢
      obtain ⟨p,read,split,same⟩ := takeFrame_reads after
      refine ⟨p,read,split,fun rest => ?_⟩
      rw [@pumpRound_frame (st.withBuf (p ++ rest)) parsed sketch]
      exact same rest
    | false =>
      cases isPub : st.isPub with
      | true =>
        rw [pumpRound_pub parsed sketch isPub] at after ⊢
        obtain ⟨p,read,split,same⟩ := takePacket_reads after
        refine ⟨p,read,split,fun rest => ?_⟩
        rw [@pumpRound_pub (st.withBuf (p ++ rest)) parsed sketch isPub]
        exact same rest
      | false =>
        cases zone : st.isZonePub with
        | true =>
          rw [pumpRound_zonePub parsed sketch isPub zone] at after ⊢
          obtain ⟨p,read,split,same⟩ := takePacket_reads after
          refine ⟨p,read,split,fun rest => ?_⟩
          rw [@pumpRound_zonePub (st.withBuf (p ++ rest)) parsed sketch isPub zone]
          exact same rest
        | false =>
          rw [pumpRound_sub parsed sketch isPub zone] at after
          cases after

/-- The stream is at a complete header line with this verb and these fields. -/
structure HeaderLine (st : StreamState) (line rest : Bytes) (verb : Verb) (topic : Bytes) : Prop where
  fresh : st.headerParsed = false
  found : cut newline st.buf = some (line,rest)
  fields : ∃ word, cut space line = some (word,topic) ∧ Verb.ofBytes word = verb

/-- Everything a round that consumes something can do: its call and the state
after it. -/
inductive Taking (st : StreamState) : Option Call → StreamState → Prop
  | bare {line rest} : st.headerParsed = false → cut newline st.buf = some (line,rest) → cut space line = none →
      Taking st none (st.withBuf rest)
  | sub {line rest topic} : HeaderLine st line rest .sub topic →
      Taking st (some (.sub topic)) {st with buf := rest, topic := topic, headerParsed := true, isPub := false}
  | pub {line rest topic} : HeaderLine st line rest .pub topic →
      Taking st none {st with buf := rest, topic := topic, headerParsed := true, isPub := true}
  | skb {line rest topic} : HeaderLine st line rest .skb topic →
      Taking st (some (.sketchSub topic)) {st with buf := rest, topic := topic, headerParsed := true, isSketch := true}
  | zpb {line rest topic} : HeaderLine st line rest .zpb topic → (parseZpbFields topic st.motion).1 = true →
      Taking st (some .zoneSub) {st with
        buf := rest, topic := topic, headerParsed := true, isZonePub := true
        motion := (parseZpbFields topic st.motion).2}
  | badZpb {line rest topic} : HeaderLine st line rest .zpb topic → (parseZpbFields topic st.motion).1 = false →
      Taking st none {st with
        buf := rest, topic := topic, headerParsed := true
        motion := (parseZpbFields topic st.motion).2}
  | unknown {line rest topic} : HeaderLine st line rest .unknown topic → 
      Taking st none {st with buf := rest, topic := topic, headerParsed := true}
  | frame {frame rest} : st.headerParsed = true → st.isSketch = true →
      Taking st (some (.sketchFrame st.roomId frame)) (st.withBuf rest)
  | packet {payload rest} : st.headerParsed = true → st.isSketch = false → st.isPub = true →
      st.buf = payload ++ rest → payload.length = kEntityPacketSize →
      Taking st (some (.pub st.topic payload)) {st with buf := rest, headerParsed := false}
  | zonePacket {payload rest} : st.headerParsed = true → st.isSketch = false → st.isPub = false →
      st.isZonePub = true → st.buf = payload ++ rest → payload.length = kEntityPacketSize →
      Taking st (some (.zonePub st.motion payload)) {st with buf := rest, headerParsed := false}

/-- How a round ends, as the call it makes and the state it leaves. -/
def Round.Ends (r : Round) (call : Option Call) (after : StreamState) : Prop :=
  r = .stop after ∧ call = none ∨ r = .more call after

@[simp] theorem Round.wait_ends (call : Option Call) (after : StreamState) : ¬ Round.wait.Ends call after := by
  simp [Round.Ends]

@[simp] theorem Round.stop_ends (st after : StreamState) (call : Option Call) :
    (Round.stop st).Ends call after ↔ after = st ∧ call = none := by
  simp [Round.Ends,eq_comm]

@[simp] theorem Round.more_ends (st after : StreamState) (made call : Option Call) :
    (Round.more made st).Ends call after ↔ after = st ∧ call = made := by
  simp [Round.Ends,eq_comm,and_comm]

private theorem parseHeader_taking {st after : StreamState} {line rest : Bytes} {call : Option Call}
    (fresh : st.headerParsed = false) (found : cut newline st.buf = some (line,rest))
    (ends : (parseHeader st line rest).Ends call after) : Taking st call after := by
  unfold parseHeader at ends
  cases fields : cut space line with
  | none =>
    rw [fields] at ends
    obtain ⟨rfl,rfl⟩ := (Round.stop_ends _ _ _).mp ends
    exact .bare fresh found fields
  | some pair =>
    obtain ⟨word,topic⟩ := pair
    have at_line (verb : Verb) (known : Verb.ofBytes word = verb) : HeaderLine st line rest verb topic :=
      ⟨fresh,found,word,fields,known⟩
    rw [fields] at ends
    dsimp only at ends
    cases known : Verb.ofBytes word with
    | sub =>
      simp only [known,Round.more_ends] at ends
      obtain ⟨rfl,rfl⟩ := ends
      exact .sub (at_line _ known)
    | pub =>
      simp only [known,Round.more_ends] at ends
      obtain ⟨rfl,rfl⟩ := ends
      exact .pub (at_line _ known)
    | skb =>
      simp only [known,Round.more_ends] at ends
      obtain ⟨rfl,rfl⟩ := ends
      exact .skb (at_line _ known)
    | unknown =>
      simp only [known,Round.stop_ends] at ends
      obtain ⟨rfl,rfl⟩ := ends
      exact .unknown (at_line _ known)
    | zpb =>
      have good := Taking.zpb (at_line _ known)
      have bad := Taking.badZpb (at_line _ known)
      rcases parsed : parseZpbFields topic st.motion with ⟨_ | _,motion⟩
      · simp only [known,parsed,Round.stop_ends] at ends bad
        obtain ⟨rfl,rfl⟩ := ends
        exact bad trivial
      · simp only [known,parsed,Round.more_ends] at ends good
        obtain ⟨rfl,rfl⟩ := ends
        exact good trivial

private theorem takePacket_ends {st after : StreamState} {make : Bytes → Call} {call : Option Call}
    (ends : (takePacket st make).Ends call after) :
    ∃ payload rest, call = some (make payload) ∧ st.buf = payload ++ rest ∧
      payload.length = kEntityPacketSize ∧ after = {st with buf := rest, headerParsed := false} := by
  unfold takePacket at ends
  by_cases short : st.buf.length < kEntityPacketSize
  · simp [short] at ends
  · simp only [short,if_false,Round.more_ends] at ends
    obtain ⟨rfl,rfl⟩ := ends
    exact ⟨_,_,rfl,(List.take_append_drop _ _).symm,by rw [List.length_take]; omega,rfl⟩

private theorem takeFrame_ends {st after : StreamState} {call : Option Call}
    (ends : (takeFrame st).Ends call after) :
    ∃ frame rest, call = some (.sketchFrame st.roomId frame) ∧ after = st.withBuf rest := by
  unfold takeFrame at ends
  split at ends
  · dsimp only at ends
    split at ends
    · exact absurd ends (Round.wait_ends _ _)
    · split at ends
      · exact absurd ends (Round.wait_ends _ _)
      · obtain ⟨rfl,rfl⟩ := (Round.more_ends _ _ _ _).mp ends
        exact ⟨_,_,rfl,rfl⟩
  · exact absurd ends (Round.wait_ends _ _)

theorem pumpRound_taking {st after : StreamState} {call : Option Call} (ends : (pumpRound st).Ends call after) :
    Taking st call after := by
  cases parsed : st.headerParsed with
  | false =>
    cases found : cut newline st.buf with
    | none =>
      rw [pumpRound_open parsed found] at ends
      exact absurd ends (Round.wait_ends _ _)
    | some pair =>
      rw [pumpRound_header parsed found] at ends
      exact parseHeader_taking parsed found ends
  | true =>
    cases sketch : st.isSketch with
    | true =>
      rw [pumpRound_frame parsed sketch] at ends
      obtain ⟨frame,rest,rfl,rfl⟩ := takeFrame_ends ends
      exact .frame parsed sketch
    | false =>
      cases isPub : st.isPub with
      | true =>
        rw [pumpRound_pub parsed sketch isPub] at ends
        obtain ⟨payload,rest,rfl,buf,length,rfl⟩ := takePacket_ends ends
        exact .packet parsed sketch isPub buf length
      | false =>
        cases zone : st.isZonePub with
        | true =>
          rw [pumpRound_zonePub parsed sketch isPub zone] at ends
          obtain ⟨payload,rest,rfl,buf,length,rfl⟩ := takePacket_ends ends
          exact .zonePacket parsed sketch isPub zone buf length
        | false =>
          rw [pumpRound_sub parsed sketch isPub zone] at ends
          exact absurd ends (Round.wait_ends _ _)

/-- The sketch branch of the loop never returns early. -/
theorem pumpRound_sketch {st : StreamState} (parsed : st.headerParsed = true) (sketch : st.isSketch = true) :
    pumpRound st = .wait ∨
      ∃ frame rest, pumpRound st = .more (some (.sketchFrame st.roomId frame)) (st.withBuf rest) := by
  rw [pumpRound_frame parsed sketch]
  unfold takeFrame
  split
  · dsimp only
    split
    · exact Or.inl rfl
    · split
      · exact Or.inl rfl
      · exact Or.inr ⟨_,_,rfl⟩
  · exact Or.inl rfl

theorem pumpRound_skb {st : StreamState} {line rest topic : Bytes} (at_line : HeaderLine st line rest .skb topic) :
    pumpRound st = .more (some (.sketchSub topic))
      {st with buf := rest, topic := topic, headerParsed := true, isSketch := true} := by
  obtain ⟨word,fields,known⟩ := at_line.fields
  rw [pumpRound_header at_line.fresh at_line.found]
  simp [parseHeader,fields,known]

end WarpLoop.Bridge
