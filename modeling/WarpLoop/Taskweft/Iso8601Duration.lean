import WarpLoop.Lib.Decimal
import WarpLoop.Scheme.Numbers

/-! The parser of ISO 8601 durations (flow-toolchain/riscv-guests/shrubbery/
taskweft-iso8601duration.shrub): a recursive descent over the characters, with the side
of the `T`, the last rank and the fraction seen carried along. What it accepts is then said
as a relation on the text, one rule for each way the descent goes on. A whole part is a number
of the interpreter, which is a real once its digits leave the 64 bits; the fractions, of three
digits at most, are plain integers. -/
namespace WarpLoop.Taskweft.Iso8601
open Lib.Decimal Scheme

inductive DurUnit
  | Y
  | Mo
  | W
  | D
  | H
  | Mi
  | S
deriving DecidableEq, Repr

structure DurComponent where
  unit : DurUnit
  whole : Number
  fracMilli : Int
deriving DecidableEq

inductive ParseError
  | empty
  | expectedP
  | unexpectedEnd
  | invalidNumber
  | dateAfterT
  | timeBeforeT
  | duplicateT
  | mixedBasicExtended
  | unexpectedToken
  | nonCanonicalOrder
  | fractionNotOnLast
deriving DecidableEq, Repr

def isDigit (c : Char) : Bool := '0'.toNat ≤ c.toNat && c.toNat ≤ '9'.toNat

def digitValue (c : Char) : Int := (c.toNat : Int) - '0'.toNat

def takeNumberFrac (acc : Int) (n : Nat) : List Char → Int × List Char
  | [] => (acc * 10^(3 - n),[])
  | d::chars =>
    if isDigit d && n < 3 then takeNumberFrac (acc * 10 + digitValue d) (n + 1) chars
    else (acc * 10^(3 - n),d::chars)

def takeNumberGo (whole : Number) : List Char → Except ParseError (Number × Int × List Char)
  | [] => .ok (whole,0,[])
  | c::chars =>
    if isDigit c then takeNumberGo ((whole.mul 10).add (.fixnum (digitValue c))) chars
    else if c = '.' then
      match chars with
      | d::_ => if isDigit d then .ok (whole,takeNumberFrac 0 0 chars) else .error .invalidNumber
      | [] => .error .invalidNumber
    else .ok (whole,0,c::chars)

def takeNumber : List Char → Except ParseError (Number × Int × List Char)
  | [] => .error .unexpectedEnd
  | c::chars => if isDigit c then takeNumberGo (.fixnum (digitValue c)) chars else .error .unexpectedToken

def classifyUnit (inTime : Bool) (c : Char) : Option DurUnit :=
  if !inTime && c = 'Y' then some .Y
  else if !inTime && c = 'M' then some .Mo
  else if !inTime && c = 'W' then some .W
  else if !inTime && c = 'D' then some .D
  else if inTime && c = 'H' then some .H
  else if inTime && c = 'M' then some .Mi
  else if inTime && c = 'S' then some .S
  else none

def crossSideUnit (inTime : Bool) (c : Char) : Option DurUnit :=
  if inTime && c = 'Y' then some .Y
  else if inTime && c = 'D' then some .D
  else if !inTime && c = 'H' then some .H
  else if !inTime && c = 'S' then some .S
  else none

def unitRank : DurUnit → Int
  | .Y => 0
  | .Mo => 1
  | .D => 2
  | .W => 99
  | .H => 3
  | .Mi => 4
  | .S => 5

def DurUnit.inTime : DurUnit → Bool
  | .H => true
  | .Mi => true
  | .S => true
  | _ => false

def DurUnit.letter : DurUnit → Char
  | .Y => 'Y'
  | .Mo => 'M'
  | .W => 'W'
  | .D => 'D'
  | .H => 'H'
  | .Mi => 'M'
  | .S => 'S'

/-- The value of a digit. -/
def digitNat (c : Char) : Nat := c.toNat - '0'.toNat

theorem digitValue_eq {c : Char} (digit : isDigit c = true) : digitValue c = (digitNat c : Int) := by
  simp only [isDigit,Bool.and_eq_true,decide_eq_true_eq] at digit
  simp only [digitValue,digitNat]
  omega

/-- The fraction of a number, with the point that introduces it. -/
def dotted : List Char → List Char
  | [] => []
  | d::frac => '.'::d::frac

def numberValue (digits : List Char) : Nat := value (digits.map digitNat)

/-- One more digit of a whole part. -/
def pushDigit (whole : Number) (d : Char) : Number := (whole.mul 10).add (.fixnum (digitValue d))

/-- The whole part that is read from digits. -/
def readWhole : List Char → Number
  | [] => 0
  | d::digits => digits.foldl pushDigit (.fixnum (digitValue d))

def fracValue (frac : List Char) : Nat := numberValue frac * 10^(3 - frac.length)

theorem numberValue_cons (d : Char) (digits : List Char) :
    numberValue (d::digits) = digitNat d * 10^digits.length + numberValue digits := by
  rw [numberValue,List.map_cons,value_cons,List.length_map]
  rfl

/-! The numbers. -/

theorem takeNumberFrac_sound (chars : List Char) (acc : Int) (n : Nat) (small : n ≤ 3) :
    ∃ digits rest, takeNumberFrac acc n chars =
        ((acc * 10^digits.length + numberValue digits) * 10^(3 - (n + digits.length)),rest) ∧
      chars = digits ++ rest ∧ (∀ d ∈ digits, isDigit d = true) ∧ n + digits.length ≤ 3 := by
  induction chars generalizing acc n with
  | nil => exact ⟨[],[],by simp [takeNumberFrac,numberValue],rfl,by simp,by simpa using small⟩
  | cons d chars ih =>
    unfold takeNumberFrac
    split
    · rename_i goes
      simp only [Bool.and_eq_true,decide_eq_true_eq] at goes
      obtain ⟨digits,rest,same,rfl,all,bound⟩ := ih (acc * 10 + digitValue d) (n + 1) (by omega)
      refine ⟨d::digits,rest,?_,rfl,?_,by simp only [List.length_cons]; omega⟩
      · rw [same,numberValue_cons,List.length_cons,digitValue_eq goes.1]
        push_cast
        rw [show n + (digits.length + 1) = n + 1 + digits.length by omega]
        congr 1
        ring
      · simp only [List.forall_mem_cons]
        exact ⟨goes.1,all⟩
    · exact ⟨[],d::chars,by simp [numberValue],rfl,by simp,by simpa using small⟩

theorem takeNumberFrac_complete (digits : List Char) (all : ∀ d ∈ digits, isDigit d = true) (acc : Int) (n : Nat)
    (small : n + digits.length ≤ 3) {u : Char} (letter : isDigit u = false) (rest : List Char) :
    takeNumberFrac acc n (digits ++ u::rest) =
      ((acc * 10^digits.length + numberValue digits) * 10^(3 - (n + digits.length)),u::rest) := by
  induction digits generalizing acc n with
  | nil => simp [takeNumberFrac,letter,numberValue]
  | cons d digits ih =>
    obtain ⟨digit,others⟩ := List.forall_mem_cons.mp all
    rw [List.length_cons] at small
    have goes : (isDigit d && n < 3) = true := by
      simp only [digit,Bool.true_and,decide_eq_true_eq]
      omega
    rw [List.cons_append,takeNumberFrac,if_pos goes,ih others _ _ (by omega),numberValue_cons,List.length_cons,
      digitValue_eq digit,show n + (digits.length + 1) = n + 1 + digits.length by omega]
    push_cast
    congr 1
    ring

theorem takeNumberGo_sound (chars : List Char) (whole w : Number) (m : Int) (rest : List Char)
    (ok : takeNumberGo whole chars = .ok (w,m,rest)) :
    ∃ digits frac, chars = digits ++ dotted frac ++ rest ∧ (∀ d ∈ digits, isDigit d = true) ∧
      (∀ d ∈ frac, isDigit d = true) ∧ frac.length ≤ 3 ∧ w = digits.foldl pushDigit whole ∧ m = fracValue frac := by
  induction chars generalizing whole with
  | nil =>
    cases ok
    exact ⟨[],[],by simp [dotted,numberValue,fracValue]⟩
  | cons c chars ih =>
    unfold takeNumberGo at ok
    split at ok
    · rename_i digit
      obtain ⟨digits,frac,rfl,all,allFrac,short,rfl,rfl⟩ := ih _ ok
      exact ⟨c::digits,frac,rfl,List.forall_mem_cons.mpr ⟨digit,all⟩,allFrac,short,rfl,rfl⟩
    · split at ok
      · rename_i point
        subst point
        split at ok
        · rename_i d later
          split at ok
          · rename_i digit
            -- the first digit is there, so the fraction is not empty
            obtain ⟨digits,behind,same,rfl,all,bound⟩ := takeNumberFrac_sound later (digitValue d) 1 (by omega)
            have first : takeNumberFrac 0 0 (d::(digits ++ behind)) =
                takeNumberFrac (digitValue d) 1 (digits ++ behind) := by
              rw [takeNumberFrac]
              simp [digit]
            rw [first,same] at ok
            cases ok
            refine ⟨[],d::digits,rfl,by simp,List.forall_mem_cons.mpr ⟨digit,all⟩,?_,rfl,?_⟩
            · rw [List.length_cons]
              omega
            · rw [fracValue,numberValue_cons,List.length_cons,digitValue_eq digit,Nat.add_comm 1]
              push_cast
              rfl
          · cases ok
        · cases ok
      · cases ok
        exact ⟨[],[],by simp [dotted,numberValue,fracValue]⟩

theorem takeNumberGo_complete (digits frac : List Char) (all : ∀ d ∈ digits, isDigit d = true)
    (allFrac : ∀ d ∈ frac, isDigit d = true) (short : frac.length ≤ 3) (whole : Number) {u : Char}
    (letter : isDigit u = false) (noPoint : u ≠ '.') (rest : List Char) :
    takeNumberGo whole (digits ++ dotted frac ++ u::rest) = .ok (digits.foldl pushDigit whole,fracValue frac,u::rest) := by
  induction digits generalizing whole with
  | nil =>
    cases frac with
    | nil => simp [dotted,takeNumberGo,letter,noPoint,numberValue,fracValue]
    | cons d frac =>
      have taken := takeNumberFrac_complete (d::frac) allFrac 0 0 (by simpa using short) letter rest
      have point : isDigit '.' = false := by decide
      have digit := (List.forall_mem_cons.mp allFrac).1
      simp only [List.nil_append,dotted,List.cons_append,takeNumberGo,point,Bool.false_eq_true,if_false,if_true,digit]
      rw [← List.cons_append,taken]
      simp [numberValue,fracValue]
  | cons d digits ih =>
    obtain ⟨digit,others⟩ := List.forall_mem_cons.mp all
    rw [List.cons_append,List.cons_append,takeNumberGo.eq_def]
    simp only [digit,if_true]
    exact ih others _

/-- A number and the letter behind it, as characters. -/
structure Piece where
  whole : List Char
  frac : List Char
  unit : Char
  whole_ne : whole ≠ []
  whole_digits : ∀ d ∈ whole, isDigit d = true
  frac_digits : ∀ d ∈ frac, isDigit d = true
  frac_short : frac.length ≤ 3
  unit_no_digit : isDigit unit = false
  unit_no_point : unit ≠ '.'

namespace Piece

def number (p : Piece) : List Char := p.whole ++ dotted p.frac

def text (p : Piece) : List Char := p.number ++ [p.unit]

/-- The component that is read, once its unit is known. -/
def component (p : Piece) (u : DurUnit) : DurComponent := ⟨u,readWhole p.whole,fracValue p.frac⟩

theorem text_append (p : Piece) (rest : List Char) : p.text ++ rest = p.whole ++ dotted p.frac ++ p.unit::rest := by
  simp [text,number]

end Piece

theorem takeNumber_piece (p : Piece) (rest : List Char) :
    takeNumber (p.text ++ rest) = .ok (readWhole p.whole,fracValue p.frac,p.unit::rest) := by
  obtain ⟨d,digits,same⟩ := List.exists_cons_of_ne_nil p.whole_ne
  have all := p.whole_digits
  rw [same] at all
  obtain ⟨digit,others⟩ := List.forall_mem_cons.mp all
  rw [p.text_append,same,List.cons_append,List.cons_append,takeNumber,if_pos digit,
    takeNumberGo_complete digits p.frac others p.frac_digits p.frac_short _ p.unit_no_digit p.unit_no_point]
  rfl

theorem takeNumber_sound {cs rest : List Char} {w : Number} {m : Int} (ok : takeNumber cs = .ok (w,m,rest)) :
    ∃ digits frac, cs = digits ++ dotted frac ++ rest ∧ digits ≠ [] ∧ (∀ d ∈ digits, isDigit d = true) ∧
      (∀ d ∈ frac, isDigit d = true) ∧ frac.length ≤ 3 ∧ w = readWhole digits ∧ m = fracValue frac := by
  unfold takeNumber at ok
  split at ok
  · cases ok
  · rename_i c chars
    split at ok
    · rename_i digit
      obtain ⟨digits,frac,rfl,all,allFrac,short,rfl,rfl⟩ := takeNumberGo_sound chars _ w m rest ok
      exact ⟨c::digits,frac,rfl,by simp,List.forall_mem_cons.mpr ⟨digit,all⟩,allFrac,short,rfl,rfl⟩
    · cases ok

theorem takeNumber_length {cs rest : List Char} {w : Number} {m : Int} (ok : takeNumber cs = .ok (w,m,rest)) :
    rest.length < cs.length := by
  obtain ⟨digits,frac,rfl,some_digit,_⟩ := takeNumber_sound ok
  have positive := List.length_pos_iff.mpr some_digit
  simp only [List.length_append]
  omega

/-! The descent. -/

def parseComponents (cs : List Char) (acc : List DurComponent) (inTime sawT : Bool) (lastRank : Int)
    (fracSeen : Bool) : Except ParseError (List DurComponent) :=
  match cs with
  | [] => .ok acc.reverse
  | c::chars =>
    if fracSeen then .error .fractionNotOnLast
    else if c = 'T' then
      if sawT then .error .duplicateT
      else if chars.isEmpty then .error .unexpectedEnd
      else parseComponents chars acc true true lastRank false
    else
      match _read : takeNumber (c::chars) with
      | .error tag => .error tag
      | .ok (_,_,[]) => .error .invalidNumber
      | .ok (whole,milli,unitC::rest) =>
        if unitC = 'W' && (!acc.isEmpty || inTime) then .error .mixedBasicExtended
        else if acc.any (fun dc => dc.unit = .W) then .error .mixedBasicExtended
        else
          match classifyUnit inTime unitC with
          | some u =>
            if unitRank u ≤ lastRank then .error .nonCanonicalOrder
            else parseComponents rest (⟨u,whole,milli⟩::acc) inTime sawT (unitRank u) (milli ≠ 0)
          | none =>
            match crossSideUnit inTime unitC with
            | some _ => if inTime then .error .dateAfterT else .error .timeBeforeT
            | none => .error .unexpectedToken
termination_by cs.length
decreasing_by
  · simp
  · have shorter := takeNumber_length _read
    simp only [List.length_cons] at shorter ⊢
    omega

/-- The text is read as components, given what was read before it. -/
inductive Reads : Bool → Bool → Int → List DurComponent → List Char → List DurComponent → Prop
  | done {inTime sawT lastRank acc} : Reads inTime sawT lastRank acc [] acc.reverse
  | time {inTime lastRank acc cs out} : cs ≠ [] → Reads true true lastRank acc cs out →
      Reads inTime false lastRank acc ('T'::cs) out
  | component {inTime sawT lastRank acc rest out} (p : Piece) (u : DurUnit) :
      classifyUnit inTime p.unit = some u → (u = .W → acc = []) → (∀ dc ∈ acc, dc.unit ≠ .W) →
      lastRank < unitRank u → (fracValue p.frac ≠ 0 → rest = []) →
      Reads inTime sawT (unitRank u) (p.component u::acc) rest out →
      Reads inTime sawT lastRank acc (p.text ++ rest) out

theorem classifyUnit_letter (u : DurUnit) : classifyUnit u.inTime u.letter = some u := by
  cases u <;> rfl

theorem classifyUnit_eq_some {inTime : Bool} {c : Char} {u : DurUnit} (known : classifyUnit inTime c = some u) :
    c = u.letter ∧ inTime = u.inTime := by
  unfold classifyUnit at known
  repeat' split at known
  all_goals cases known
  all_goals
    rename_i here
    simp only [Bool.and_eq_true,decide_eq_true_eq] at here
    obtain ⟨side,rfl⟩ := here
    simpa [DurUnit.letter,DurUnit.inTime] using side

theorem letter_spec (u : DurUnit) :
    isDigit u.letter = false ∧ u.letter ≠ '.' ∧ (u.letter = 'W' ↔ u = .W) ∧ (u = .W → u.inTime = false) := by
  cases u <;> decide

theorem parseComponents_sound (cs : List Char) (acc : List DurComponent) (inTime sawT : Bool) (lastRank : Int)
    (fracSeen : Bool) (out : List DurComponent)
    (ok : parseComponents cs acc inTime sawT lastRank fracSeen = .ok out) :
    (fracSeen = true → cs = []) ∧ Reads inTime sawT lastRank acc cs out := by
  fun_induction parseComponents cs acc inTime sawT lastRank fracSeen with
  | case1 =>
    cases ok
    exact ⟨fun _ => rfl,.done⟩
  | case5 acc inTime sawT lastRank fracSeen chars plain unseen more ih =>
    obtain rfl : sawT = false := by simpa using unseen
    refine ⟨fun seen => absurd seen plain,.time ?_ (ih ok).2⟩
    simpa using more
  | case11 acc inTime sawT lastRank fracSeen d chars plain noT whole milli unitC rest read week noWeek u known later ih =>
    obtain ⟨rfl,rfl⟩ := classifyUnit_eq_some known
    obtain ⟨noDigit,noPoint,isWeek,_⟩ := letter_spec u
    obtain ⟨digits,frac,split,some_digit,all,allFrac,short,rfl,rfl⟩ := takeNumber_sound read
    let p : Piece := ⟨digits,frac,u.letter,some_digit,all,allFrac,short,noDigit,noPoint⟩
    have text : d::chars = p.text ++ rest := by rw [p.text_append,split]
    obtain ⟨last,reads⟩ := ih ok
    refine ⟨fun seen => absurd seen plain,?_⟩
    rw [text]
    refine .component p u known ?_ ?_ (Int.not_le.mp later) ?_ reads
    · intro isW
      rw [isWeek.mpr isW] at week
      simp only [decide_true,Bool.true_and,Bool.or_eq_true,not_or] at week
      simpa using week.1
    · simpa using noWeek
    · intro fraction
      exact last (by simpa using fraction)
  | _ => cases ok

theorem parseComponents_complete {inTime sawT : Bool} {lastRank : Int} {acc out : List DurComponent} {cs : List Char}
    (reads : Reads inTime sawT lastRank acc cs out) (fracSeen : Bool) (last : fracSeen = true → cs = []) :
    parseComponents cs acc inTime sawT lastRank fracSeen = .ok out := by
  induction reads generalizing fracSeen with
  | done => rw [parseComponents]
  | @time inTime lastRank acc cs out more later ih =>
    have plain : fracSeen = false := by
      cases fracSeen with
      | false => rfl
      | true => cases last rfl
    rw [parseComponents,plain]
    simp [more,ih]
  | @component inTime sawT lastRank acc rest out p u known week noWeek order_ fraction later ih =>
    obtain ⟨letter,here⟩ := classifyUnit_eq_some known
    obtain ⟨_,_,isWeek,side⟩ := letter_spec u
    rw [← letter] at isWeek
    rw [← here] at side
    obtain ⟨d,digits,same⟩ := List.exists_cons_of_ne_nil p.whole_ne
    have digit : isDigit d = true := p.whole_digits d (by rw [same]; simp)
    have noT : d ≠ 'T' := by
      rintro rfl
      cases digit
    have text : p.text ++ rest = d::(digits ++ dotted p.frac ++ p.unit::rest) := by
      rw [p.text_append,same]
      rfl
    have read := takeNumber_piece p rest
    have plain : fracSeen = false := by
      cases fracSeen with
      | false => rfl
      | true => cases text.symm.trans (last rfl)
    have go := ih (decide ((fracValue p.frac : Int) ≠ 0)) (by simpa using fraction)
    rw [text] at read ⊢
    rw [parseComponents,plain,if_neg Bool.false_ne_true,if_neg noT]
    split
    · rename_i failed
      rw [read] at failed
      cases failed
    · rename_i ended
      rw [read] at ended
      cases ended
    · rename_i taken
      rw [read] at taken
      cases taken
      have mixed : (decide (p.unit = 'W') && (!acc.isEmpty || inTime)) = false := by
        by_cases isW : p.unit = 'W'
        · have first := week (isWeek.mp isW)
          have date := side (isWeek.mp isW)
          simp [first,date]
        · simp [isW]
      have noneBefore : acc.any (fun dc => dc.unit = .W) = false := by simpa using noWeek
      rw [mixed,noneBefore,if_neg Bool.false_ne_true,if_neg Bool.false_ne_true,known]
      dsimp only
      rw [if_neg (Int.not_le.mpr order_)]
      exact go

def parse (s : String) : Except ParseError (List DurComponent) :=
  match s.toList with
  | [] => .error .empty
  | c::chars =>
    if c = 'P' && chars.isEmpty then .ok []
    else if c = 'P' then parseComponents chars [] false false (-1) false
    else .error .expectedP

theorem parse_ok_iff {s : String} {out : List DurComponent} :
    parse s = .ok out ↔ ∃ chars, s.toList = 'P'::chars ∧ Reads false false (-1) [] chars out := by
  unfold parse
  constructor
  · intro ok
    split at ok
    · cases ok
    · rename_i c chars text
      split at ok
      · rename_i bare
        simp only [Bool.and_eq_true,decide_eq_true_eq,List.isEmpty_iff] at bare
        obtain ⟨rfl,rfl⟩ := bare
        cases ok
        exact ⟨[],text,.done⟩
      · split at ok
        · rename_i start
          exact ⟨chars,by rw [text,start],(parseComponents_sound _ _ _ _ _ _ _ ok).2⟩
        · cases ok
  · rintro ⟨chars,text,reads⟩
    rw [text]
    cases chars with
    | nil =>
      obtain rfl : out = [] := by
        generalize nothing : ([] : List Char) = cs at reads
        cases reads with
        | done => rfl
        | time => cases nothing
        | component p => simp [Piece.text] at nothing
      rfl
    | cons c chars => simp [parseComponents_complete reads false (fun seen => by cases seen)]

def unitMilliseconds : DurUnit → Int
  | .Y => 365 * 86400 * 1000
  | .Mo => 30 * 86400 * 1000
  | .W => 7 * 86400 * 1000
  | .D => 86400 * 1000
  | .H => 3600 * 1000
  | .Mi => 60 * 1000
  | .S => 1000

def fracContribution (u : DurUnit) (fracMilli : Int) : Number :=
  (Number.fixnum fracMilli).mul (.fixnum ((unitMilliseconds u).tdiv 1000))

def totalMilliseconds : List DurComponent → Number
  | [] => 0
  | c::cs =>
    ((c.whole.mul (.fixnum (unitMilliseconds c.unit))).add (fracContribution c.unit c.fracMilli)).add (totalMilliseconds cs)

def totalSeconds (cs : List DurComponent) : Option Number := (totalMilliseconds cs).quotient 1000

end WarpLoop.Taskweft.Iso8601
