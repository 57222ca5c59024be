import WarpLoop.Bridge.Server

/-! Which header a payload belongs to. The mode flags of a stream outlive the
header that set them, so a later header of another kind may find them set; the
payload behind such a header is dispatched by the old flag. Apart from that every
payload is handled as the header line before it says. -/
namespace WarpLoop.Bridge
open Sketch (Bytes)

inductive Announcement
  | pub (topic : Bytes)
  | zonePub (motion : Motion)
deriving DecidableEq, Repr

/-- What a header line alone says about the payload behind it. -/
def announcement (line : Bytes) : Option Announcement :=
  match cut space line with
  | none => none
  | some (verb,fields) =>
    match Verb.ofBytes verb with
    | .pub => some (.pub fields)
    | .zpb => if (parseZpbFields fields Motion.zero).1 then some (.zonePub (parseZpbFields fields Motion.zero).2) else none
    | _ => none

def Call.packet? : Call → Option Announcement
  | .pub topic _ => some (.pub topic)
  | .zonePub motion _ => some (.zonePub motion)
  | _ => none

namespace Visit

def line? (v : Visit) : Option Bytes :=
  if v.before.headerParsed then none else (cut newline v.before.buf).map Prod.fst

def packet? (v : Visit) : Option Announcement := v.call.bind Call.packet?

end Visit

/-- Every payload is handled as the last header line before it announced. -/
def HeaderDecides : Option Bytes → List Visit → Prop
  | _,[] => True
  | last,v::later =>
    (v.packet? = none ∨ v.packet? = last.bind announcement) ∧ HeaderDecides (v.line?.or last) later

instance decidableHeaderDecides : (last : Option Bytes) → (visits : List Visit) → Decidable (HeaderDecides last visits)
  | _,[] => inferInstanceAs (Decidable True)
  | last,v::later =>
    have := decidableHeaderDecides (v.line?.or last) later
    inferInstanceAs (Decidable (_ ∧ _))

/-- A header parsed while the flag of an earlier header is set, such that the
flag and not the header decides about the next payload. -/
def StreamState.stale (st : StreamState) (line : Bytes) : Bool :=
  match cut space line with
  | none => false
  | some (verb,fields) =>
    match Verb.ofBytes verb with
    | .sub => st.isZonePub
    | .pub => false
    | .skb => false
    | .zpb => if (parseZpbFields fields st.motion).1 then st.isPub else st.isPub || st.isZonePub
    | .unknown => st.isPub || st.isZonePub

def Visit.stale (v : Visit) : Bool :=
  match v.line? with
  | none => false
  | some line => v.before.stale line

/-- No round follows a stale header. -/
def StaleHeaderLast : List Visit → Prop
  | [] => True
  | v::later => (v.stale = true → later = []) ∧ StaleHeaderLast later

/-- The header lines behind which the source returns early. -/
def StreamState.rejects (st : StreamState) (line : Bytes) : Bool :=
  match cut space line with
  | none => true
  | some (verb,fields) =>
    match Verb.ofBytes verb with
    | .zpb => !(parseZpbFields fields st.motion).1
    | .unknown => true
    | _ => false

/-- The header in front of the buffer is stale and a payload arrives behind it:
with the bytes of the later callbacks at least 100 follow it, and where the source
returns early there is a later callback. -/
def StreamState.Misleads (st : StreamState) (later : List Bytes) : Prop :=
  st.headerParsed = false ∧ ∃ line rest, cut newline st.buf = some (line,rest) ∧ st.stale line = true ∧
    kEntityPacketSize ≤ rest.length + later.flatten.length ∧ (st.rejects line = true → later ≠ [])

/-- No round of one callback parses a header that misleads, and the state in which
the loop leaves the stream meets `next`. -/
def RoundsHonest (later : List Bytes) (next : StreamState → Prop) : Nat → StreamState → Prop
  | 0,st => next st
  | fuel+1,st => ¬ st.Misleads later ∧
    match pumpRound st with
    | .wait => next st
    | .stop after => next after
    | .more _ after => RoundsHonest later next fuel after

/-- No callback of the stream parses a header that misleads. -/
def HeadersHonest : List Bytes → StreamState → Prop
  | [],_ => True
  | bytes::later,st =>
    RoundsHonest later (HeadersHonest later) (st.buf ++ bytes).length {st with buf := st.buf ++ bytes}

/-- The bytes of one callback for a stream, in the server state it finds. -/
structure Delivery where
  server : Server
  rttMicros : UInt64
  bytes : Bytes

/-- The rounds of one stream over its callbacks. Between them the rest of the
server may do anything. -/
def streamVisits (cnx : Cnx) (streamId : UInt64) : StreamState → List Delivery → List Visit
  | _,[] => []
  | st,d::later =>
    let pumped := receive (Server.handle cnx streamId d.rttMicros) d.server st d.bytes
    pumped.2.2 ++ streamVisits cnx streamId pumped.2.1 later

/-- The part of a stream's state that its loop branches on and hands out. -/
def StreamState.mode (st : StreamState) : StreamState := {st with buf := [], roomId := 0}

/-- Rounds that follow one another from `st` to `last`, up to bytes that arrive
and rooms that are assigned in between. -/
def Chain : StreamState → List Visit → StreamState → Prop
  | st,[],last => last.mode = st.mode
  | st,v::later,last => v.before.mode = st.mode ∧ ∃ after, Taking v.before v.call after ∧ Chain after later last

theorem Chain.congr {st st' last : StreamState} {visits : List Visit} (same : st'.mode = st.mode)
    (chain : Chain st visits last) : Chain st' visits last := by
  cases visits with
  | nil => exact chain.trans same.symm
  | cons v later => exact ⟨chain.1.trans same.symm,chain.2⟩

theorem Chain.append {st middle last : StreamState} {first second : List Visit} (before : Chain st first middle)
    (after : Chain middle second last) : Chain st (first ++ second) last := by
  induction first generalizing st with
  | nil => exact after.congr before.symm
  | cons v later ih =>
    obtain ⟨same,next,takes,rest⟩ := before
    exact ⟨same,next,takes,ih rest⟩

@[simp] theorem StreamState.assign_mode (st : StreamState) (roomId : Option UInt64) :
    (st.assign roomId).mode = st.mode := by
  cases roomId <;> rfl

theorem pumpStream_chain {ω : Type} (handle : ω → Call → ω × Option UInt64) (fuel : Nat) (w : ω) (st : StreamState) :
    Chain st (pumpStream handle fuel w st).2.2 (pumpStream handle fuel w st).2.1 := by
  induction fuel generalizing w st with
  | zero => rfl
  | succ fuel ih =>
    cases round : pumpRound st with
    | wait => simp [pumpStream,round,Chain]
    | stop after =>
      simp only [pumpStream,round]
      exact ⟨rfl,after,pumpRound_taking (by simp [round]),rfl⟩
    | more call after =>
      cases call with
      | none =>
        simp only [pumpStream,round]
        exact ⟨rfl,after,pumpRound_taking (by simp [round]),ih w after⟩
      | some call =>
        simp only [pumpStream,round]
        exact ⟨rfl,after,pumpRound_taking (by simp [round]),(ih _ _).congr (StreamState.assign_mode after _).symm⟩

theorem streamVisits_chain (cnx : Cnx) (streamId : UInt64) (st : StreamState) (deliveries : List Delivery) :
    ∃ last, Chain st (streamVisits cnx streamId st deliveries) last := by
  induction deliveries generalizing st with
  | nil => exact ⟨st,rfl⟩
  | cons d later ih =>
    have first := pumpStream_chain (Server.handle cnx streamId d.rttMicros) (st.buf ++ d.bytes).length d.server
      {st with buf := st.buf ++ d.bytes}
    obtain ⟨last,rest⟩ := ih (receive (Server.handle cnx streamId d.rttMicros) d.server st d.bytes).2.1
    have here : ({st with buf := st.buf ++ d.bytes} : StreamState).mode = st.mode := rfl
    exact ⟨last,(first.congr here.symm).append rest⟩

/-- The values that a successful parse stores do not depend on what was stored
before. -/
private theorem parseFields_values (fields : List (Motion → Int64 → Motion)) (p : Bytes) (m result : Motion)
    (ok : parseFields fields p m = (true,result)) :
    ∃ values : List Int64, values.length = fields.length ∧
      ∀ m, parseFields fields p m = (true,(fields.zip values).foldl (fun m entry => entry.1 m entry.2) m) := by
  induction fields generalizing p m with
  | nil => exact ⟨[],rfl,fun m => by simp [parseFields]⟩
  | cons set later ih =>
    unfold parseFields at ok
    split at ok
    · cases ok
    rename_i v rest parsed
    split at ok
    · rename_i lastField
      obtain rfl : later = [] := List.isEmpty_iff.mp lastField
      refine ⟨[v],rfl,fun m => ?_⟩
      have ended : rest.isEmpty = true := congrArg Prod.fst ok
      simp [parseFields,parsed,ended]
    · rename_i notLast
      split at ok
      · cases ok
      rename_i b p'
      split at ok
      · rename_i isSpace
        obtain ⟨values,length,same⟩ := ih p' (set m v) ok
        refine ⟨v::values,by simp [length],fun m => ?_⟩
        unfold parseFields
        simp only [parsed,notLast,isSpace,if_true,same,Bool.false_eq_true,if_false,List.zip_cons_cons,List.foldl_cons]
      · cases ok

private theorem parseFields_verdict (fields : List (Motion → Int64 → Motion)) (p : Bytes) (m m' : Motion) :
    (parseFields fields p m).1 = (parseFields fields p m').1 := by
  induction fields generalizing p m m' with
  | nil => rfl
  | cons set later ih =>
    unfold parseFields
    split
    · rfl
    · split
      · rfl
      · split
        · rfl
        · split
          · exact ih _ _ _
          · rfl

theorem parseZpbFields_verdict (fields : Bytes) (m m' : Motion) :
    (parseZpbFields fields m).1 = (parseZpbFields fields m').1 := parseFields_verdict _ _ _ _

/-- All six fields are overwritten by a successful parse. -/
theorem parseZpbFields_values {fields : Bytes} {m m' : Motion} (ok : (parseZpbFields fields m).1 = true) :
    parseZpbFields fields m = parseZpbFields fields m' := by
  obtain ⟨values,length,same⟩ := parseFields_values Motion.fields fields m (parseZpbFields fields m).2
    (by rw [← ok]; rfl)
  unfold parseZpbFields
  rw [same m,same m']
  match values,length with
  | [_,_,_,_,_,_],_ => rfl

/-- How the loop would dispatch a payload in this state. -/
def StreamState.due (st : StreamState) : Option Announcement :=
  if !st.headerParsed || st.isSketch then none
  else if st.isPub then some (.pub st.topic)
  else if st.isZonePub then some (.zonePub st.motion)
  else none

theorem due_of_mode {st st' : StreamState} (same : st'.mode = st.mode) : st'.due = st.due := by
  have fields : st'.headerParsed = st.headerParsed ∧ st'.isSketch = st.isSketch ∧ st'.isPub = st.isPub ∧
      st'.isZonePub = st.isZonePub ∧ st'.topic = st.topic ∧ st'.motion = st.motion := by
    simp only [StreamState.mode,StreamState.mk.injEq] at same
    tauto
  obtain ⟨h1,h2,h3,h4,h5,h6⟩ := fields
  simp only [StreamState.due,h1,h2,h3,h4,h5,h6]

/-- A stream that has turned to sketch frames stays with them. -/
def StreamState.SketchStays (st : StreamState) : Prop := st.isSketch = true → st.headerParsed = true

theorem sketchStays_of_mode {st st' : StreamState} (same : st'.mode = st.mode) (stays : st.SketchStays) :
    st'.SketchStays := by
  simp only [StreamState.mode,StreamState.mk.injEq] at same
  simpa only [StreamState.SketchStays,same] using stays

theorem Taking.sketchStays {st after : StreamState} {call : Option Call} (taking : Taking st call after)
    (stays : st.SketchStays) : after.SketchStays := by
  cases taking with
  | bare => exact stays
  | frame parsed => exact fun _ => parsed
  | packet _ plain => exact fun sketch => Bool.noConfusion (plain.symm.trans sketch)
  | zonePacket _ plain => exact fun sketch => Bool.noConfusion (plain.symm.trans sketch)
  | _ => exact fun _ => rfl

theorem HeaderLine.line? {v : Visit} {line rest topic : Bytes} {verb : Verb}
    (at_line : HeaderLine v.before line rest verb topic) : v.line? = some line := by
  simp [Visit.line?,at_line.fresh,at_line.found]

/-- A header that is not stale leaves the stream ready to treat the next payload
as it announced, and a stale one leaves it ready to treat it otherwise. -/
private theorem taking_header {v : Visit} {after : StreamState} {line : Bytes} (stays : v.before.SketchStays)
    (taking : Taking v.before v.call after) (header : v.line? = some line) :
    v.packet? = none ∧ (v.stale = false → after.due = none ∨ after.due = announcement line) ∧
      (v.stale = true → after.due ≠ none ∧ after.due ≠ announcement line) := by
  have plain (fresh : v.before.headerParsed = false) : v.before.isSketch = false := by
    cases sketch : v.before.isSketch with
    | false => rfl
    | true => rw [stays sketch] at fresh; cases fresh
  have stale : v.stale = v.before.stale line := by simp [Visit.stale,header]
  rw [stale]
  generalize made : v.call = call at taking
  have packet : v.packet? = call.bind Call.packet? := by simp [Visit.packet?,made]
  rw [packet]
  cases taking with
  | bare fresh found nospace =>
    obtain rfl : _ = line := by simpa [Visit.line?,fresh,found] using header
    refine ⟨rfl,fun _ => Or.inl ?_,fun bad => ?_⟩
    · simp [StreamState.due,StreamState.withBuf,fresh]
    · simp [StreamState.stale,nospace] at bad
  | frame parsed => simp [Visit.line?,parsed] at header
  | packet parsed => simp [Visit.line?,parsed] at header
  | zonePacket parsed => simp [Visit.line?,parsed] at header
  | sub at_line =>
    obtain ⟨word,fields,known⟩ := at_line.fields
    obtain rfl := Option.some.inj (at_line.line?.symm.trans header)
    simp [Call.packet?,StreamState.due,StreamState.stale,announcement,
      fields,known,plain at_line.fresh]
  | pub at_line =>
    obtain ⟨word,fields,known⟩ := at_line.fields
    obtain rfl := Option.some.inj (at_line.line?.symm.trans header)
    simp [StreamState.due,StreamState.stale,announcement,
      fields,known,plain at_line.fresh]
  | skb at_line =>
    obtain ⟨word,fields,known⟩ := at_line.fields
    obtain rfl := Option.some.inj (at_line.line?.symm.trans header)
    simp [Call.packet?,StreamState.due,StreamState.stale,fields,known]
  | zpb at_line ok =>
    obtain ⟨word,fields,known⟩ := at_line.fields
    obtain rfl := Option.some.inj (at_line.line?.symm.trans header)
    have zero := @parseZpbFields_values _ _ Motion.zero ok
    rw [zero] at ok
    cases isPub : v.before.isPub <;>
      simp [Call.packet?,StreamState.due,StreamState.stale,announcement,
        fields,known,plain at_line.fresh,zero,ok,isPub]
  | badZpb at_line bad =>
    obtain ⟨word,fields,known⟩ := at_line.fields
    obtain rfl := Option.some.inj (at_line.line?.symm.trans header)
    have zero := (parseZpbFields_verdict _ v.before.motion Motion.zero).symm.trans bad
    cases isPub : v.before.isPub <;> cases isZonePub : v.before.isZonePub <;>
      simp [StreamState.due,StreamState.stale,announcement,
        fields,known,plain at_line.fresh,zero,bad,isPub,isZonePub]
  | unknown at_line =>
    obtain ⟨word,fields,known⟩ := at_line.fields
    obtain rfl := Option.some.inj (at_line.line?.symm.trans header)
    cases isPub : v.before.isPub <;> cases isZonePub : v.before.isZonePub <;>
      simp [StreamState.due,StreamState.stale,announcement,
        fields,known,plain at_line.fresh,isPub,isZonePub]

private theorem taking_body {v : Visit} {after : StreamState}
    (taking : Taking v.before v.call after) (body : v.line? = none) :
    v.packet? = v.before.due ∧ v.stale = false ∧ after.due = none := by
  have stale : v.stale = false := by simp [Visit.stale,body]
  generalize made : v.call = call at taking
  have packet : v.packet? = call.bind Call.packet? := by simp [Visit.packet?,made]
  rw [packet]
  refine ⟨?_,stale,?_⟩ <;> cases taking with
  | bare fresh found => simp [Visit.line?,fresh,found] at body
  | sub at_line => simp [at_line.line?] at body
  | pub at_line => simp [at_line.line?] at body
  | skb at_line => simp [at_line.line?] at body
  | zpb at_line => simp [at_line.line?] at body
  | badZpb at_line => simp [at_line.line?] at body
  | unknown at_line => simp [at_line.line?] at body
  | frame parsed sketch =>
    simp [StreamState.due,StreamState.withBuf,Call.packet?,parsed,sketch]
  | packet parsed plain isPub =>
    simp [StreamState.due,Call.packet?,parsed,plain,isPub]
  | zonePacket parsed plain notPub isZonePub =>
    simp [StreamState.due,Call.packet?,parsed,plain,notPub,isZonePub]

/-- The invariant of the induction is `due`: what the flags would do with a
payload is what the last header announced. Only a stale header breaks it, and then
the next round, if there is one, is the wrong dispatch. -/
theorem headerDecides_iff_of_chain {st last : StreamState} {visits : List Visit} (line : Option Bytes)
    (stays : st.SketchStays) (chain : Chain st visits last)
    (ready : st.due = none ∨ st.due = line.bind announcement) :
    HeaderDecides line visits ↔ StaleHeaderLast visits := by
  induction visits generalizing st line with
  | nil => simp [HeaderDecides,StaleHeaderLast]
  | cons v later ih =>
    obtain ⟨same,after,taking,rest⟩ := chain
    have staysHere := sketchStays_of_mode same stays
    have staysAfter := taking.sketchStays staysHere
    cases header : v.line? with
    | none =>
      obtain ⟨packet,fresh,idle⟩ := taking_body taking header
      rw [due_of_mode same] at packet
      have on := ih line staysAfter rest (Or.inl idle)
      simp only [HeaderDecides,StaleHeaderLast,header,Option.none_or,fresh,Bool.false_eq_true,false_implies,true_and]
      rw [packet,on]
      exact and_iff_right ready
    | some found =>
      obtain ⟨packet,good,bad⟩ := taking_header staysHere taking header
      simp only [HeaderDecides,StaleHeaderLast,header,Option.some_or,packet,true_or,true_and]
      cases stale : v.stale with
      | false =>
        have on := ih (some found) staysAfter rest (good stale)
        simpa using on
      | true =>
        cases later with
        | nil => simp [HeaderDecides,StaleHeaderLast]
        | cons next more =>
          obtain ⟨due,wrong⟩ := bad stale
          obtain ⟨nextSame,_,nextTaking,_⟩ := rest
          have parsed : next.line? = none := by
            have : next.before.headerParsed = true := by
              have shown : next.before.due ≠ none := by rwa [due_of_mode nextSame]
              by_contra fresh
              simp [StreamState.due,fresh] at shown
            simp [Visit.line?,this]
          obtain ⟨dispatch,_⟩ := taking_body nextTaking parsed
          rw [due_of_mode nextSame] at dispatch
          simp [HeaderDecides,dispatch,due,wrong]

theorem parseHeader_ne_wait (st : StreamState) (line rest : Bytes) : parseHeader st line rest ≠ .wait := by
  unfold parseHeader
  split
  · simp
  · dsimp only
    split
    · simp
    · simp
    · simp
    · split <;> simp
    · simp

theorem packet_due {st : StreamState} (parsed : st.headerParsed = true) (plain : st.isSketch = false) :
    pumpRound st ≠ .wait ↔ (st.isPub = true ∨ st.isZonePub = true) ∧ kEntityPacketSize ≤ st.buf.length := by
  have length (make : Bytes → Call) : takePacket st make ≠ .wait ↔ kEntityPacketSize ≤ st.buf.length := by
    unfold takePacket
    split
    · simp; omega
    · simp; omega
  cases isPub : st.isPub with
  | true => rw [pumpRound_pub parsed plain isPub,length]; simp
  | false =>
    cases isZonePub : st.isZonePub with
    | true => rw [pumpRound_zonePub parsed plain isPub isZonePub,length]; simp
    | false => rw [pumpRound_sub parsed plain isPub isZonePub]; simp

/-- A stream that expects a payload goes on exactly when the payload is complete. -/
theorem due_goes_on {st : StreamState} (due : st.due ≠ none) :
    pumpRound st ≠ .wait ↔ kEntityPacketSize ≤ st.buf.length := by
  have parsed : st.headerParsed = true := by
    by_contra fresh
    simp [StreamState.due,fresh] at due
  have plain : st.isSketch = false := by
    by_contra sketch
    simp [StreamState.due,sketch] at due
  have flagged : st.isPub = true ∨ st.isZonePub = true := by
    by_contra neither
    rw [not_or] at neither
    simp [StreamState.due,neither] at due
  rw [packet_due parsed plain]
  exact and_iff_right flagged

theorem pumpStream_waits {ω : Type} (handle : ω → Call → ω × Option UInt64) (fuel : Nat) (w : ω) {st : StreamState}
    (waits : pumpRound st = .wait) : pumpStream handle fuel w st = (w,st,[]) := by
  cases fuel with
  | zero => rfl
  | succ fuel => simp [pumpStream,waits]

theorem pumpStream_takes {ω : Type} (handle : ω → Call → ω × Option UInt64) {fuel : Nat} (w : ω) {st : StreamState}
    (some_fuel : 0 < fuel) (takes : pumpRound st ≠ .wait) : (pumpStream handle fuel w st).2.2 ≠ [] := by
  cases fuel with
  | zero => exact absurd some_fuel (Nat.lt_irrefl 0)
  | succ fuel =>
    unfold pumpStream
    cases round : pumpRound st with
    | wait => exact absurd round takes
    | stop after => simp
    | more call after => cases call <;> simp

private def bytesOf (later : List Delivery) : List Bytes := later.map Delivery.bytes

section Expecting
variable (cnx : Cnx) (streamId : UInt64)

/-- Once the next payload is expected, the callbacks have another round exactly
when its bytes arrive. -/
private theorem streamVisits_due {st : StreamState} (due : st.due ≠ none) (later : List Delivery) :
    streamVisits cnx streamId st later = [] ↔
      later = [] ∨ st.buf.length + (bytesOf later).flatten.length < kEntityPacketSize := by
  induction later generalizing st with
  | nil => simp [streamVisits]
  | cons d later ih =>
    have here : ({st with buf := st.buf ++ d.bytes} : StreamState).due ≠ none := due
    have total : (bytesOf (d::later)).flatten.length = d.bytes.length + (bytesOf later).flatten.length := by
      simp [bytesOf]
    simp only [streamVisits,receive,List.append_eq_nil_iff,reduceCtorEq,false_or,total]
    by_cases enough : kEntityPacketSize ≤ st.buf.length + d.bytes.length
    · have takes : pumpRound {st with buf := st.buf ++ d.bytes} ≠ .wait := (due_goes_on here).mpr (by simpa using enough)
      have some_fuel : 0 < (st.buf ++ d.bytes).length := by
        rw [List.length_append]
        exact Nat.lt_of_lt_of_le (by decide) enough
      have visited := pumpStream_takes (Server.handle cnx streamId d.rttMicros) d.server some_fuel takes
      exact iff_of_false (fun empty => visited empty.1) (by omega)
    · have waits : pumpRound {st with buf := st.buf ++ d.bytes} = .wait := by
        by_contra takes
        exact enough (by simpa using (due_goes_on here).mp takes)
      rw [pumpStream_waits _ _ _ waits,ih here,List.length_append]
      simp only [true_and]
      constructor
      · rintro (rfl | short)
        · simp only [bytesOf,List.map_nil,List.flatten_nil,List.length_nil]
          omega
        · omega
      · intro short
        exact Or.inr (by omega)

/-- The same in the middle of a callback. -/
private theorem pumpStream_due {st : StreamState} (due : st.due ≠ none) (rttMicros : UInt64) {fuel : Nat} (s : Server)
    (bound : st.buf.length ≤ fuel) (later : List Delivery) :
    let pumped := pumpStream (Server.handle cnx streamId rttMicros) fuel s st
    pumped.2.2 ++ streamVisits cnx streamId pumped.2.1 later = [] ↔
      st.buf.length + (bytesOf later).flatten.length < kEntityPacketSize := by
  intro pumped
  rw [List.append_eq_nil_iff]
  by_cases enough : kEntityPacketSize ≤ st.buf.length
  · have some_fuel : 0 < fuel := Nat.lt_of_lt_of_le (by decide : 0 < kEntityPacketSize) (Nat.le_trans enough bound)
    have visited := pumpStream_takes (Server.handle cnx streamId rttMicros) s some_fuel ((due_goes_on due).mpr enough)
    exact iff_of_false (fun empty => visited empty.1) (by omega)
  · have waits : pumpRound st = .wait := by
      by_contra takes
      exact enough ((due_goes_on due).mp takes)
    have same : pumped = (s,st,[]) := pumpStream_waits _ _ _ waits
    rw [same,streamVisits_due cnx streamId due]
    simp only [true_and]
    constructor
    · rintro (rfl | short)
      · simp only [bytesOf,List.map_nil,List.flatten_nil,List.length_nil]
        omega
      · exact short
    · exact Or.inr

end Expecting

/-- The room that a stream was given decides nothing but what a sketch frame is
handed over with. -/
private theorem pumpRound_assign (st : StreamState) (roomId : UInt64) :
    match pumpRound st with
    | .wait => pumpRound (st.assign (some roomId)) = .wait
    | .stop after => pumpRound (st.assign (some roomId)) = .stop (after.assign (some roomId))
    | .more _ after => ∃ call, pumpRound (st.assign (some roomId)) = .more call (after.assign (some roomId)) := by
  cases parsed : st.headerParsed with
  | false =>
    have still : (st.assign (some roomId)).headerParsed = false := parsed
    cases found : cut newline st.buf with
    | none =>
      rw [pumpRound_open parsed found]
      exact pumpRound_open still found
    | some pair =>
      rw [pumpRound_header parsed found,pumpRound_header still found]
      unfold parseHeader
      cases cut space pair.1 with
      | none => rfl
      | some fields =>
        dsimp only
        have motion : (st.assign (some roomId)).motion = st.motion := rfl
        rw [motion]
        cases Verb.ofBytes fields.1 with
        | zpb => rcases parseZpbFields fields.2 st.motion with ⟨_ | _,_⟩ <;> simp [StreamState.assign]
        | _ => simp [StreamState.assign]
  | true =>
    have still : (st.assign (some roomId)).headerParsed = true := parsed
    have packet (make : Bytes → Call) :
        match takePacket st make with
        | .wait => takePacket (st.assign (some roomId)) make = .wait
        | .stop after => takePacket (st.assign (some roomId)) make = .stop (after.assign (some roomId))
        | .more _ after =>
          ∃ call, takePacket (st.assign (some roomId)) make = .more call (after.assign (some roomId)) := by
      unfold takePacket
      by_cases short : st.buf.length < kEntityPacketSize <;> simp [short,StreamState.assign]
    cases sketch : st.isSketch with
    | true =>
      rw [pumpRound_frame parsed sketch,@pumpRound_frame (st.assign (some roomId)) still sketch]
      unfold takeFrame
      have buf : (st.assign (some roomId)).buf = st.buf := rfl
      rw [buf]
      match st.buf with
      | [] | [_] | [_,_] | [_,_,_] => rfl
      | b0::b1::b2::b3::body =>
        dsimp only
        generalize b0.toNat ||| (b1.toNat <<< 8) ||| (b2.toNat <<< 16) ||| (b3.toNat <<< 24) = frameLen
        by_cases large : frameLen > kMaxSketchFrame
        · simp [large]
        · by_cases short : body.length < frameLen <;> simp [large,short,StreamState.assign]
    | false =>
      cases isPub : st.isPub with
      | true =>
        rw [pumpRound_pub parsed sketch isPub,@pumpRound_pub (st.assign (some roomId)) still sketch isPub]
        exact packet _
      | false =>
        cases isZonePub : st.isZonePub with
        | true =>
          rw [pumpRound_zonePub parsed sketch isPub isZonePub,
            @pumpRound_zonePub (st.assign (some roomId)) still sketch isPub isZonePub]
          exact packet _
        | false =>
          rw [pumpRound_sub parsed sketch isPub isZonePub]
          exact @pumpRound_sub (st.assign (some roomId)) still sketch isPub isZonePub

private theorem roundsHonest_assign (later : List Bytes) (next : StreamState → Prop) (roomId : UInt64)
    (indifferent : ∀ st : StreamState, next (st.assign (some roomId)) ↔ next st) (fuel : Nat) (st : StreamState) :
    RoundsHonest later next fuel (st.assign (some roomId)) ↔ RoundsHonest later next fuel st := by
  induction fuel generalizing st with
  | zero => exact indifferent st
  | succ fuel ih =>
    have misleads : (st.assign (some roomId)).Misleads later ↔ st.Misleads later := Iff.rfl
    have same := pumpRound_assign st roomId
    unfold RoundsHonest
    rw [misleads]
    cases round : pumpRound st with
    | wait =>
      rw [round] at same
      simp only [same,indifferent]
    | stop after =>
      rw [round] at same
      simp only [same,indifferent]
    | more call after =>
      rw [round] at same
      obtain ⟨_,same⟩ := same
      simp only [same,ih]

private theorem headersHonest_assign (later : List Bytes) (st : StreamState) (roomId : UInt64) :
    HeadersHonest later (st.assign (some roomId)) ↔ HeadersHonest later st := by
  induction later generalizing st with
  | nil => exact Iff.rfl
  | cons bytes later ih => exact roundsHonest_assign later _ roomId ih _ {st with buf := st.buf ++ bytes}

theorem parseHeader_stop {st : StreamState} {line rest : Bytes} :
    (∃ after, parseHeader st line rest = .stop after) ↔ st.rejects line = true := by
  unfold parseHeader StreamState.rejects
  cases cut space line with
  | none => simp
  | some fields =>
    dsimp only
    cases Verb.ofBytes fields.1 with
    | zpb => rcases parseZpbFields fields.2 st.motion with ⟨_ | _,_⟩ <;> simp
    | _ => simp

/-- What a stale header does in one round: it leaves the stream expecting a payload,
and it misleads when that payload arrives. -/
private theorem round_misleads {st after : StreamState} {call : Option Call} (stays : st.SketchStays)
    (ends : (pumpRound st).Ends call after) (later : List Bytes) :
    (st.Misleads later ↔ (⟨st,call⟩ : Visit).stale = true ∧
        kEntityPacketSize ≤ after.buf.length + later.flatten.length ∧ ((∃ after, pumpRound st = .stop after) → later ≠ [])) ∧
      ((⟨st,call⟩ : Visit).stale = true → after.due ≠ none) := by
  have taking : Taking st call after := pumpRound_taking ends
  cases header : (⟨st,call⟩ : Visit).line? with
  | none =>
    have fresh : (⟨st,call⟩ : Visit).stale = false := by simp [Visit.stale,header]
    refine ⟨?_,by simp [fresh]⟩
    rw [fresh]
    simp only [Bool.false_eq_true,false_and,iff_false]
    rintro ⟨parsed,line,rest,found,_⟩
    simp [Visit.line?,parsed,found] at header
  | some line =>
    have stale : (⟨st,call⟩ : Visit).stale = st.stale line := by simp [Visit.stale,header]
    obtain ⟨-,-,wrong⟩ := @taking_header ⟨st,call⟩ after line stays taking header
    refine ⟨?_,fun bad => (wrong bad).1⟩
    have parsed : st.headerParsed = false := by
      by_contra not_fresh
      simp [Visit.line?,not_fresh] at header
    obtain ⟨rest,found⟩ : ∃ rest, cut newline st.buf = some (line,rest) := by
      simp only [Visit.line?,parsed,Bool.false_eq_true,if_false,Option.map_eq_some_iff] at header
      obtain ⟨⟨_,rest⟩,found,rfl⟩ := header
      exact ⟨rest,found⟩
    have buf : after.buf = rest := by
      rw [pumpRound_header parsed found] at ends
      rcases ends with ⟨ends,-⟩ | ends
      · exact parseHeader_buf (by rw [ends]; rfl)
      · exact parseHeader_buf (by rw [ends]; rfl)
    rw [stale,buf,pumpRound_header parsed found,parseHeader_stop]
    constructor
    · rintro ⟨-,_,_,again,bad⟩
      obtain ⟨rfl,rfl⟩ := Prod.mk.inj (Option.some.inj (found.symm.trans again))
      exact bad
    · intro bad
      exact ⟨parsed,line,rest,found,bad⟩

/-- Over the rounds of one callback nothing follows a stale header exactly when no
header misleads. -/
private theorem staleHeaderLast_rounds (cnx : Cnx) (streamId rttMicros : UInt64) (later : List Delivery)
    (goesOn : ∀ st : StreamState, st.SketchStays →
      (StaleHeaderLast (streamVisits cnx streamId st later) ↔ HeadersHonest (bytesOf later) st))
    (fuel : Nat) (s : Server) (st : StreamState) (stays : st.SketchStays) (bound : st.buf.length ≤ fuel) :
    let pumped := pumpStream (Server.handle cnx streamId rttMicros) fuel s st
    StaleHeaderLast (pumped.2.2 ++ streamVisits cnx streamId pumped.2.1 later) ↔
      RoundsHonest (bytesOf later) (HeadersHonest (bytesOf later)) fuel st := by
  induction fuel generalizing s st with
  | zero => exact goesOn st stays
  | succ fuel ih =>
    cases round : pumpRound st with
    | wait =>
      have silent : ¬ st.Misleads (bytesOf later) := by
        rintro ⟨parsed,line,rest,found,_⟩
        rw [pumpRound_header parsed found] at round
        exact parseHeader_ne_wait _ _ _ round
      simp only [pumpStream,round,RoundsHonest,silent,not_false_eq_true,true_and,List.nil_append]
      exact goesOn st stays
    | stop after =>
      have ends : (pumpRound st).Ends none after := by simp [round]
      obtain ⟨misleads,expects⟩ := round_misleads stays ends (bytesOf later)
      simp only [pumpStream,round,RoundsHonest,misleads,List.cons_append,List.nil_append,StaleHeaderLast]
      rw [goesOn after ((pumpRound_taking ends).sketchStays stays)]
      refine and_congr_left fun _ => ?_
      have returned : ∃ again, Round.stop after = .stop again := ⟨after,rfl⟩
      constructor
      · rintro last ⟨stale,enough,goes⟩
        rcases (streamVisits_due cnx streamId (expects stale) later).mp (last stale) with rfl | short
        · exact goes returned rfl
        · omega
      · intro honest stale
        apply (streamVisits_due cnx streamId (expects stale) later).mpr
        by_contra more
        rw [not_or,Nat.not_lt] at more
        refine honest ⟨stale,more.2,fun _ empty => more.1 ?_⟩
        simpa [bytesOf] using empty
    | more call after =>
      have ends : (pumpRound st).Ends call after := by simp [round]
      obtain ⟨misleads,expects⟩ := round_misleads stays ends (bytesOf later)
      obtain ⟨p,read,split,-⟩ := @pumpRound_reads st after (by simp [round,Round.state?])
      have shorter : after.buf.length ≤ fuel := by
        have length := congrArg List.length split
        have positive := List.length_pos_iff.mpr read
        rw [List.length_append] at length
        omega
      have staysAfter := (pumpRound_taking ends).sketchStays stays
      -- whatever the handler gives back, the rest of the loop is honest together with the loop from `after`
      have rest (s : Server) (roomId : Option UInt64) :
          let pumped := pumpStream (Server.handle cnx streamId rttMicros) fuel s (after.assign roomId)
          ((⟨st,call⟩ : Visit).stale = true → pumped.2.2 ++ streamVisits cnx streamId pumped.2.1 later = []) ∧
              StaleHeaderLast (pumped.2.2 ++ streamVisits cnx streamId pumped.2.1 later) ↔
            ¬ st.Misleads (bytesOf later) ∧
              RoundsHonest (bytesOf later) (HeadersHonest (bytesOf later)) fuel after := by
        intro pumped
        have modes : (after.assign roomId).mode = after.mode := StreamState.assign_mode after roomId
        have buf : (after.assign roomId).buf = after.buf := by cases roomId <;> rfl
        have on := ih s (after.assign roomId) (sketchStays_of_mode modes staysAfter) (by rwa [buf])
        have same : RoundsHonest (bytesOf later) (HeadersHonest (bytesOf later)) fuel (after.assign roomId) ↔
            RoundsHonest (bytesOf later) (HeadersHonest (bytesOf later)) fuel after := by
          cases roomId with
          | none => exact Iff.rfl
          | some roomId => exact roundsHonest_assign _ _ roomId (fun st => headersHonest_assign _ st roomId) fuel after
        refine and_congr ?_ (on.trans same)
        rw [misleads,round]
        have went_on : ¬ ∃ again, Round.more call after = .stop again := by simp
        simp only [went_on,false_implies,and_true,not_and,Nat.not_le]
        refine imp_congr_right fun stale => ?_
        have waits := pumpStream_due cnx streamId (by rw [due_of_mode modes]; exact expects stale) rttMicros s
          (by rwa [buf] : (after.assign roomId).buf.length ≤ fuel) later
        rwa [buf] at waits
      cases call with
      | none =>
        simp only [pumpStream,round,RoundsHonest,List.cons_append,StaleHeaderLast]
        exact rest s none
      | some call =>
        simp only [pumpStream,round,RoundsHonest,List.cons_append,StaleHeaderLast]
        exact rest _ _

private theorem staleHeaderLast_iff (cnx : Cnx) (streamId : UInt64) (deliveries : List Delivery) (st : StreamState)
    (stays : st.SketchStays) :
    StaleHeaderLast (streamVisits cnx streamId st deliveries) ↔ HeadersHonest (bytesOf deliveries) st := by
  induction deliveries generalizing st with
  | nil => exact iff_of_true trivial trivial
  | cons d later ih =>
    exact staleHeaderLast_rounds cnx streamId d.rttMicros later ih _ d.server {st with buf := st.buf ++ d.bytes} stays
      (Nat.le_refl _)

/-- Every payload of a stream, over any callbacks, is handled as the header line
before it announces exactly when no header misleads. -/
theorem payload_follows_header_iff (cnx : Cnx) (streamId : UInt64) (deliveries : List Delivery) :
    HeaderDecides none (streamVisits cnx streamId {} deliveries) ↔
      HeadersHonest (deliveries.map Delivery.bytes) {} := by
  obtain ⟨last,chain⟩ := streamVisits_chain cnx streamId {} deliveries
  have stays : ({} : StreamState).SketchStays := fun sketch => by cases sketch
  rw [headerDecides_iff_of_chain none stays chain (Or.inl rfl)]
  exact staleHeaderLast_iff cnx streamId deliveries {} stays

/-- `PUB a`, a packet, `ZPB 0 0 0 0 0 0` and another packet. -/
def pubThenZpb : Bytes :=
  [80,85,66,32,97,10] ++ List.replicate 100 0 ++ [90,80,66,32,48,32,48,32,48,32,48,32,48,32,48,10] ++
    List.replicate 100 0

/-- The packet behind the `ZPB` header is published to the topic `0 0 0 0 0 0`. -/
theorem zpb_payload_published :
    ¬ HeaderDecides none (streamVisits ⟨1⟩ 0 {} [⟨Server.initial 64,0,pubThenZpb⟩]) ∧
      ((streamVisits ⟨1⟩ 0 {} [⟨Server.initial 64,0,pubThenZpb⟩]).map Visit.call).getLast? =
        some (some (.pub [48,32,48,32,48,32,48,32,48,32,48] (List.replicate 100 0))) := by
  decide +kernel

end WarpLoop.Bridge
