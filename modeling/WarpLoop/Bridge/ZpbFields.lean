import Mathlib.Data.List.Forall2
import Mathlib.Data.List.TakeWhile
import WarpLoop.Lib.Decimal
import WarpLoop.Core.GhostRange
import WarpLoop.Bridge.ServerSpecs

/-! The six numbers of a ZPB header, from its bytes to the call of `fanout_entity_move_v`:
which lines the parser accepts and what it reads from them, and where the conversion of
the velocities leaves the range of its C++ types. -/
namespace WarpLoop.Bridge
open Sketch (Bytes)
open Lib.Decimal WarpLoop.Core

/-! The grammar of the line. -/

def digitOf (b : UInt8) : Nat := b.toNat - 48

/-- The bytes are a numeral for the value: digits, at least one, behind an optional minus. -/
inductive Numeral (v : Int64) : Bytes → Prop
  | plain {digits : Bytes} : digits ≠ [] → (∀ d ∈ digits, isDigit d = true) →
      v.toInt = value (digits.map digitOf) → Numeral v digits
  | negative {digits : Bytes} : digits ≠ [] → (∀ d ∈ digits, isDigit d = true) →
      v.toInt = -(value (digits.map digitOf)) → Numeral v (minus::digits)

def Motion.values (m : Motion) : List Int64 := [m.x,m.y,m.z,m.vx,m.vy,m.vz]

/-- The bytes are numerals for the six values in order, with one space between them. -/
def ZpbLine (m : Motion) (s : Bytes) : Prop :=
  ∃ numerals, List.Forall₂ Numeral m.values numerals ∧ s = [space].intercalate numerals

/-- The decimal printing of a number. -/
def printInt (v : Int64) : Bytes :=
  let digits := (numeral v.toInt.natAbs).map (fun d => UInt8.ofNat (48 + d))
  if v < 0 then minus::digits else digits

def printZpb (m : Motion) : Bytes := [space].intercalate (m.values.map printInt)

/-! One conversion. -/

/-- No further digit stands at the cursor. -/
def NoDigit (rest : Bytes) : Prop := ∀ b ∈ rest.head?, isDigit b = false

private theorem foldl_digits (digits : Bytes) :
    digits.foldl (fun (n : Int) d => n * 10 + (d.toNat - 48 : Nat)) 0 = value (digits.map digitOf) := by
  have cast (start : Nat) : digits.foldl (fun (n : Int) d => n * 10 + (d.toNat - 48 : Nat)) start =
      (((digits.map digitOf).foldl (fun n d => n * 10 + d) start : Nat) : Int) := by
    induction digits generalizing start with
    | nil => rfl
    | cons d digits ih => simpa [digitOf] using ih (start * 10 + digitOf d)
  rw [← foldl_zero]
  exact cast 0

theorem span_digits {digits rest : Bytes} (all : ∀ d ∈ digits, isDigit d = true) (ends : NoDigit rest) :
    (digits ++ rest).takeWhile isDigit = digits ∧ (digits ++ rest).dropWhile isDigit = rest := by
  have stop : rest.takeWhile isDigit = [] ∧ rest.dropWhile isDigit = rest := by
    cases rest with
    | nil => exact ⟨rfl,rfl⟩
    | cons b later =>
      have no : isDigit b = false := ends b rfl
      simp [no]
  rw [List.takeWhile_append_of_pos all,List.dropWhile_append_of_pos all,stop.1,stop.2,List.append_nil]
  exact ⟨rfl,rfl⟩

theorem noDigit_dropWhile (p : Bytes) : NoDigit (p.dropWhile isDigit) := by
  intro b head
  have found := List.head?_dropWhile_not isDigit p
  rw [Option.mem_def] at head
  rw [head] at found
  simpa using found

def signed (negative : Bool) (n : Int) : Int := if negative then -n else n

/-- The conversion behind the sign. -/
def fromDigits (negative : Bool) (p : Bytes) : Option (Int64 × Bytes) :=
  if p.takeWhile isDigit = [] then none
  else
    let n : Int := (p.takeWhile isDigit).foldl (fun n d => n * 10 + (d.toNat - 48 : Nat)) 0
    if -2^63 ≤ signed negative n ∧ signed negative n < 2^63 then
      some (Int64.ofInt (signed negative n),p.dropWhile isDigit)
    else none

theorem fromChars_minus (p : Bytes) : fromChars (minus::p) = fromDigits true p := rfl

theorem fromChars_plain {p : Bytes} (plain : p.head? ≠ some minus) : fromChars p = fromDigits false p := by
  cases p with
  | nil => rfl
  | cons b rest =>
    have differs : b ≠ minus := fun same => plain (by rw [same]; rfl)
    simp [fromChars,fromDigits,differs,signed]

theorem fromDigits_eq_some {negative : Bool} {p : Bytes} {v : Int64} {rest : Bytes} :
    fromDigits negative p = some (v,rest) ↔
      ∃ digits, digits ≠ [] ∧ (∀ d ∈ digits, isDigit d = true) ∧ NoDigit rest ∧ p = digits ++ rest ∧
        v.toInt = signed negative (value (digits.map digitOf)) := by
  unfold fromDigits
  rw [foldl_digits]
  constructor
  · intro ok
    split at ok
    · cases ok
    rename_i some_digit
    dsimp only at ok
    split at ok
    · rename_i fits
      cases ok
      refine ⟨p.takeWhile isDigit,some_digit,?_,noDigit_dropWhile p,List.takeWhile_append_dropWhile.symm,?_⟩
      · intro d member
        exact List.mem_takeWhile_imp member
      · exact Int64.toInt_ofInt_of_le fits.1 fits.2
    · cases ok
  · rintro ⟨digits,some_digit,all,ends,rfl,equal⟩
    obtain ⟨taken,dropped⟩ := span_digits all ends
    rw [taken,dropped,if_neg some_digit]
    dsimp only
    rw [← equal,if_pos ⟨v.le_toInt,v.toInt_lt⟩,Int64.ofInt_toInt]

/-- The conversion consumes a numeral up to the first byte that is no digit. -/
theorem fromChars_eq_some {p : Bytes} {v : Int64} {rest : Bytes} :
    fromChars p = some (v,rest) ↔ ∃ s, Numeral v s ∧ NoDigit rest ∧ p = s ++ rest := by
  constructor
  · intro ok
    by_cases sign : p.head? = some minus
    · obtain ⟨later,rfl⟩ := List.head?_eq_some_iff.mp sign
      rw [fromChars_minus] at ok
      obtain ⟨digits,some_digit,all,ends,rfl,equal⟩ := fromDigits_eq_some.mp ok
      exact ⟨minus::digits,.negative some_digit all equal,ends,rfl⟩
    · rw [fromChars_plain sign] at ok
      obtain ⟨digits,some_digit,all,ends,rfl,equal⟩ := fromDigits_eq_some.mp ok
      exact ⟨digits,.plain some_digit all equal,ends,rfl⟩
  · rintro ⟨s,numeral,ends,rfl⟩
    cases numeral with
    | plain some_digit all equal =>
      have unsigned : (s ++ rest).head? ≠ some minus := by
        obtain ⟨d,digits,rfl⟩ := List.exists_cons_of_ne_nil some_digit
        intro same
        have digit := all d (by simp)
        obtain rfl : d = minus := by simpa using same
        cases digit
      rw [fromChars_plain unsigned]
      exact fromDigits_eq_some.mpr ⟨s,some_digit,all,ends,rfl,equal⟩
    | @negative digits some_digit all equal =>
      rw [List.cons_append,fromChars_minus]
      exact fromDigits_eq_some.mpr ⟨digits,some_digit,all,ends,rfl,equal⟩

/-! The six conversions. -/

theorem noDigit_nil : NoDigit [] := fun _ head => by cases head

theorem noDigit_space (rest : Bytes) : NoDigit (space::rest) := by
  intro b head
  obtain rfl : space = b := by simpa using head
  rfl

def Motion.store (m : Motion) (fields : List (Motion → Int64 → Motion)) (values : List Int64) : Motion :=
  (fields.zip values).foldl (fun m entry => entry.1 m entry.2) m

private theorem parseFields_last {set : Motion → Int64 → Motion} {p : Bytes} {m m' : Motion} :
    parseFields [set] p m = (true,m') ↔ ∃ v, Numeral v p ∧ m' = set m v := by
  constructor
  · intro ok
    simp only [parseFields] at ok
    split at ok
    · cases ok
    rename_i v rest read
    obtain ⟨empty,rfl⟩ := Prod.mk.inj ok
    obtain rfl : rest = [] := List.isEmpty_iff.mp empty
    obtain ⟨s,numeral,_,rfl⟩ := fromChars_eq_some.mp read
    exact ⟨v,by rwa [List.append_nil],rfl⟩
  · rintro ⟨v,numeral,rfl⟩
    have read : fromChars p = some (v,[]) := fromChars_eq_some.mpr ⟨p,numeral,noDigit_nil,(List.append_nil p).symm⟩
    simp [parseFields,read]

private theorem parseFields_more {set next : Motion → Int64 → Motion} {later : List (Motion → Int64 → Motion)}
    {p : Bytes} {m m' : Motion} :
    parseFields (set::next::later) p m = (true,m') ↔
      ∃ v s rest, Numeral v s ∧ p = s ++ space::rest ∧ parseFields (next::later) rest (set m v) = (true,m') := by
  rw [parseFields]
  constructor
  · intro ok
    split at ok
    · cases ok
    rename_i v rest read
    obtain ⟨s,numeral,-,rfl⟩ := fromChars_eq_some.mp read
    simp only [List.isEmpty_cons,Bool.false_eq_true,if_false] at ok
    split at ok
    · cases ok
    rename_i b rest
    split at ok
    · rename_i isSpace
      exact ⟨v,s,rest,numeral,by rw [isSpace],ok⟩
    · cases ok
  · rintro ⟨v,s,rest,numeral,rfl,ok⟩
    have read : fromChars (s ++ space::rest) = some (v,space::rest) :=
      fromChars_eq_some.mpr ⟨s,numeral,noDigit_space rest,rfl⟩
    simp [read,ok]

/-- The numerals are read off one by one; the induction is on the fields that are left. -/
theorem parseFields_iff {set : Motion → Int64 → Motion} {later : List (Motion → Int64 → Motion)} {p : Bytes}
    {m m' : Motion} :
    parseFields (set::later) p m = (true,m') ↔
      ∃ values numerals, values.length = later.length + 1 ∧ List.Forall₂ Numeral values numerals ∧
        p = [space].intercalate numerals ∧ m' = m.store (set::later) values := by
  induction later generalizing set p m with
  | nil =>
    rw [parseFields_last]
    constructor
    · rintro ⟨v,numeral,rfl⟩
      exact ⟨[v],[p],rfl,.cons numeral .nil,by simp,rfl⟩
    · rintro ⟨values,numerals,length,matched,rfl,rfl⟩
      obtain ⟨v,rfl⟩ := List.length_eq_one_iff.mp length
      obtain ⟨s,rest,numeral,none,rfl⟩ := List.forall₂_cons_left_iff.mp matched
      obtain rfl := List.forall₂_nil_left_iff.mp none
      exact ⟨v,by simpa using numeral,rfl⟩
  | cons next later ih =>
    rw [parseFields_more]
    constructor
    · rintro ⟨v,s,rest,numeral,rfl,ok⟩
      obtain ⟨values,numerals,length,matched,rfl,rfl⟩ := ih.mp ok
      refine ⟨v::values,s::numerals,by simp [length],.cons numeral matched,?_,rfl⟩
      have more : numerals ≠ [] := by
        intro none
        rw [none] at matched
        rw [List.forall₂_nil_right_iff.mp matched] at length
        cases length
      rw [List.intercalate_cons_of_ne_nil more]
      simp
    · rintro ⟨values,numerals,length,matched,rfl,rfl⟩
      match values,length with
      | v::w::values,length =>
        obtain ⟨s,others,numeral,rest,rfl⟩ := List.forall₂_cons_left_iff.mp matched
        obtain ⟨t,others,numeral',rest',rfl⟩ := List.forall₂_cons_left_iff.mp rest
        refine ⟨v,s,[space].intercalate (t::others),numeral,by simp [List.intercalate_cons_cons],?_⟩
        exact ih.mpr ⟨w::values,t::others,by simpa using length,rest,rfl,rfl⟩

theorem Motion.values_store (m : Motion) (values : List Int64) (length : values.length = 6) :
    (m.store Motion.fields values).values = values := by
  match values,length with
  | [_,_,_,_,_,_],_ => rfl

theorem Motion.values_inj {m m' : Motion} (same : m.values = m'.values) : m = m' := by
  cases m
  cases m'
  simpa [Motion.values] using same

theorem parseZpbFields_iff {s : Bytes} {m m' : Motion} : parseZpbFields s m = (true,m') ↔ ZpbLine m' s := by
  unfold parseZpbFields Motion.fields
  rw [parseFields_iff]
  change (∃ values numerals, values.length = 6 ∧ _ ∧ _ ∧ m' = m.store Motion.fields values) ↔ _
  constructor
  · rintro ⟨values,numerals,length,matched,rfl,rfl⟩
    exact ⟨numerals,by rwa [m.values_store values length],rfl⟩
  · rintro ⟨numerals,matched,rfl⟩
    refine ⟨m'.values,numerals,rfl,matched,rfl,?_⟩
    apply Motion.values_inj
    rw [m.values_store m'.values rfl]

/-! Printing. -/

theorem digit_toNat {d : Nat} (small : d < 10) : (UInt8.ofNat (48 + d)).toNat = 48 + d := by
  simp
  omega

theorem printInt_numeral (v : Int64) : Numeral v (printInt v) := by
  have some_digit : (numeral v.toInt.natAbs).map (fun d => UInt8.ofNat (48 + d)) ≠ [] := by
    simpa using numeral_ne_nil v.toInt.natAbs
  have all : ∀ b ∈ (numeral v.toInt.natAbs).map (fun d => UInt8.ofNat (48 + d)), isDigit b = true := by
    intro b member
    obtain ⟨d,inside,rfl⟩ := List.mem_map.mp member
    have small := lt_of_mem_numeral inside
    have byte := digit_toNat small
    simp only [isDigit,Bool.and_eq_true,decide_eq_true_eq,UInt8.le_iff_toNat_le,byte]
    have lower : (48 : UInt8).toNat = 48 := rfl
    have upper : (57 : UInt8).toNat = 57 := rfl
    omega
  have read : value (((numeral v.toInt.natAbs).map (fun d => UInt8.ofNat (48 + d))).map digitOf) = v.toInt.natAbs := by
    have inverse (d : Nat) (small : d < 10) : digitOf (UInt8.ofNat (48 + d)) = d := by
      rw [digitOf,digit_toNat small,Nat.add_sub_cancel_left]
    rw [value_written inverse fun _ => lt_of_mem_numeral,value_numeral]
  unfold printInt
  dsimp only
  split
  · rename_i below
    have sign : v.toInt < 0 := Int64.lt_iff_toInt_lt.mp below
    apply Numeral.negative some_digit all
    rw [read]
    omega
  · rename_i above
    have sign : ¬ v.toInt < 0 := fun below => above (Int64.lt_iff_toInt_lt.mpr below)
    apply Numeral.plain some_digit all
    rw [read]
    omega

theorem printZpb_line (m : Motion) : ZpbLine m (printZpb m) :=
  ⟨m.values.map printInt,List.forall₂_map_right_iff.mpr (List.forall₂_same.mpr fun v _ => printInt_numeral v),rfl⟩

/-- The parser accepts exactly the lines of the grammar and stores their values, whatever
stood in the fields before; what is printed is read back. -/
theorem zpb_fields_exact :
    (∀ (s : Bytes) (m m' : Motion), parseZpbFields s m = (true,m') ↔ ZpbLine m' s) ∧
      ∀ m motion : Motion, parseZpbFields (printZpb motion) m = (true,motion) :=
  ⟨fun _ _ _ => parseZpbFields_iff,fun _ motion => parseZpbFields_iff.mpr (printZpb_line motion)⟩

/-! From the six values to the arguments of the core. -/

/-- `-v` on `int64_t`, which has no result when the value leaves the type. -/
def checkedNeg (v : Int64) : Option Int64 :=
  if -2^63 ≤ -v.toInt ∧ -v.toInt < 2^63 then some (Int64.ofInt (-v.toInt)) else none

/-- `absMagnitude` step by step; a cast from signed to unsigned always has a result. -/
def checkedAbsMagnitude (v : Int64) : Option UInt64 :=
  if v < 0 then (checkedNeg v).map Int64.toUInt64 else some v.toUInt64

/-- The arguments of `fanout_entity_move_v` that come from the line. -/
structure MoveArgs where
  x : Int64
  y : Int64
  z : Int64
  vx : UInt64
  vy : UInt64
  vz : UInt64
deriving DecidableEq, Repr

def moveArgs (m : Motion) : Option MoveArgs := do
  let vx ← checkedAbsMagnitude m.vx
  let vy ← checkedAbsMagnitude m.vy
  let vz ← checkedAbsMagnitude m.vz
  return ⟨m.x,m.y,m.z,vx,vy,vz⟩

/-- The positions unchanged and the absolute values of the velocities. -/
structure MoveArgs.Exact (m : Motion) (args : MoveArgs) : Prop where
  x : args.x = m.x
  y : args.y = m.y
  z : args.z = m.z
  vx : args.vx.toNat = m.vx.toInt.natAbs
  vy : args.vy.toNat = m.vy.toInt.natAbs
  vz : args.vz.toNat = m.vz.toInt.natAbs

theorem checkedNeg_eq (v : Int64) : checkedNeg v = if v.toInt = -2^63 then none else some (-v) := by
  have lower : -2^63 ≤ v.toInt := v.le_toInt
  have upper : v.toInt < 2^63 := v.toInt_lt
  have negated : Int64.ofInt (-v.toInt) = -v := by rw [Int64.ofInt_neg,Int64.ofInt_toInt]
  unfold checkedNeg
  rw [negated]
  by_cases least : v.toInt = -2^63
  · rw [if_pos least,if_neg (by omega)]
  · rw [if_neg least,if_pos (by omega)]

/-- Where the steps have a result it is that of the wrapping arithmetic. -/
theorem checkedAbsMagnitude_eq (v : Int64) :
    checkedAbsMagnitude v = if v.toInt = -2^63 then none else some (absMagnitude v) := by
  unfold checkedAbsMagnitude absMagnitude
  by_cases below : v < 0
  · rw [if_pos below,if_pos below,checkedNeg_eq]
    split <;> rfl
  · have sign : ¬ v.toInt < 0 := fun negative => below (Int64.lt_iff_toInt_lt.mpr negative)
    rw [if_neg below,if_neg below,if_neg (by omega)]

theorem absMagnitude_toNat (v : Int64) : (absMagnitude v).toNat = v.toInt.natAbs := by
  have lower : -9223372036854775808 ≤ v.toInt := v.le_toInt
  have upper : v.toInt < 9223372036854775808 := v.toInt_lt
  unfold absMagnitude
  split
  · rename_i below
    have sign : v.toInt < 0 := Int64.lt_iff_toInt_lt.mp below
    have word := toNat_toUInt64 (-v)
    have negated : (-v).toInt = (-v.toInt).bmod 18446744073709551616 := Int64.toInt_neg v
    have residue : (-v.toInt).bmod 18446744073709551616 % 18446744073709551616 =
        -v.toInt % 18446744073709551616 := Int.bmod_emod
    rw [negated,residue,Int.emod_eq_of_lt (by omega) (by omega)] at word
    omega
  · rename_i above
    have sign : ¬ v.toInt < 0 := fun negative => above (Int64.lt_iff_toInt_lt.mpr negative)
    have word := toNat_toUInt64 v
    rw [Int.emod_eq_of_lt (by omega) (by omega)] at word
    omega

/-- The arguments that the wrapping arithmetic gives. -/
def MoveArgs.of (m : Motion) : MoveArgs := ⟨m.x,m.y,m.z,absMagnitude m.vx,absMagnitude m.vy,absMagnitude m.vz⟩

theorem MoveArgs.of_exact (m : Motion) : (MoveArgs.of m).Exact m :=
  ⟨rfl,rfl,rfl,absMagnitude_toNat m.vx,absMagnitude_toNat m.vy,absMagnitude_toNat m.vz⟩

theorem moveArgs_eq_some {m : Motion} (inside : ∀ v ∈ [m.vx,m.vy,m.vz], v.toInt ≠ -2^63) :
    moveArgs m = some (MoveArgs.of m) := by
  unfold moveArgs
  rw [checkedAbsMagnitude_eq,checkedAbsMagnitude_eq,checkedAbsMagnitude_eq]
  rw [if_neg (inside m.vx (by simp)),if_neg (inside m.vy (by simp)),if_neg (inside m.vz (by simp))]
  rfl

theorem moveArgs_eq_none {m : Motion} {v : Int64} (member : v ∈ [m.vx,m.vy,m.vz]) (least : v.toInt = -2^63) :
    moveArgs m = none := by
  have none_here : checkedAbsMagnitude v = none := by rw [checkedAbsMagnitude_eq,if_pos least]
  unfold moveArgs
  simp only [List.mem_cons,List.not_mem_nil,or_false] at member
  rcases member with rfl | rfl | rfl
  · simp [none_here]
  · simp [none_here]
  · simp [none_here]

/-- The call of `fanout_entity_move_v` in `handleZonePub` with these arguments. -/
def MoveArgs.move (args : MoveArgs) (core : State) (cnx : Cnx) (rttMicros : UInt64) : State :=
  Ffi.entityMoveV core (connIdOf cnx) args.x args.y args.z args.vx args.vy args.vz (rttToTicks rttMicros)

/-- For an accepted line, every step up to the move has a result in its type, and the move
is made with the exact velocities, exactly when no velocity is the least `int64_t`. -/
theorem zpb_move_exact_iff (line : Bytes) (m motion : Motion) (_accepted : parseZpbFields line m = (true,motion)) :
    (∃ args, moveArgs motion = some args ∧ args.Exact motion ∧
      ∀ (s : Server) (cnx : Cnx) (rttMicros : UInt64) (payload : Bytes),
        (s.handleZonePub cnx rttMicros motion payload).core = args.move s.core cnx rttMicros) ↔
      ∀ v ∈ [motion.vx,motion.vy,motion.vz], v.toInt ≠ -2^63 := by
  constructor
  · rintro ⟨args,ok,_⟩ v member least
    rw [moveArgs_eq_none member least] at ok
    cases ok
  · intro inside
    refine ⟨MoveArgs.of motion,moveArgs_eq_some inside,MoveArgs.of_exact motion,?_⟩
    intro s cnx rttMicros payload
    simp [Server.handleZonePub,Server.relay_eq,MoveArgs.move,MoveArgs.of]

/-- A line with every kind of velocity. -/
theorem zpb_move_exact_walk :
    let line : Bytes := "1 2 -3 -4 0 5".toList.map (fun c => UInt8.ofNat c.toNat)
    ∃ args, moveArgs ⟨1,2,-3,-4,0,5⟩ = some args ∧ args.Exact ⟨1,2,-3,-4,0,5⟩ ∧
      (parseZpbFields line Motion.zero).1 = true := by
  have accepted : parseZpbFields ("1 2 -3 -4 0 5".toList.map (fun c => UInt8.ofNat c.toNat)) Motion.zero =
      (true,⟨1,2,-3,-4,0,5⟩) := by decide
  have inside : ∀ v ∈ [(-4 : Int64),0,5], v.toInt ≠ -2^63 := by
    simp only [List.forall_mem_cons]
    exact ⟨by decide,by decide,by decide,fun _ none => nomatch none⟩
  obtain ⟨args,ok,exact_,_⟩ := (zpb_move_exact_iff _ Motion.zero ⟨1,2,-3,-4,0,5⟩ accepted).mpr inside
  refine ⟨args,ok,exact_,?_⟩
  rw [accepted]

/-- The least velocity is accepted, and negating it has no result. -/
theorem least_velocity_overflows :
    let line : Bytes := "0 0 0 -9223372036854775808 0 0".toList.map (fun c => UInt8.ofNat c.toNat)
    let motion : Motion := ⟨0,0,0,-0x8000000000000000,0,0⟩
    parseZpbFields line Motion.zero = (true,motion) ∧ moveArgs motion = none := by
  decide

end WarpLoop.Bridge
