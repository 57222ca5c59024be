import Mathlib.Data.List.Sort
import WarpLoop.Taskweft.Iso8601Duration

/-! Durations and their texts: what a canonical duration is, how it is written, that the
parser inverts the writing and accepts nothing else as long as the numbers fit the integers of
the interpreter, and where a decimal point may stand in an accepted text. -/
namespace WarpLoop.Taskweft.Iso8601
open Lib.Decimal Scheme

/-- The units that may be combined, in the order in which they are written. -/
def unitOrder : List DurUnit := [.Y,.Mo,.D,.H,.Mi,.S]

/-- A component with natural numbers of any size, which is what the texts are about. -/
structure DurPart where
  unit : DurUnit
  whole : Nat
  milli : Nat

structure Canonical (ds : List DurPart) : Prop where
  units : ds.map DurPart.unit = [.W] ∨ (ds.map DurPart.unit).Sublist unitOrder
  milli : ∀ d ∈ ds, d.milli ≤ 999
  fraction : ∀ d ∈ ds.dropLast, d.milli = 0

/-- The component of the program is this one. -/
structure DurComponent.Is (c : DurComponent) (d : DurPart) : Prop where
  unit : c.unit = d.unit
  whole : c.whole.Is d.whole
  milli : c.fracMilli = d.milli

/-- The component of the program that is read for this one: its whole part may have become a
real. -/
structure DurComponent.Stands (c : DurComponent) (d : DurPart) : Prop where
  unit : c.unit = d.unit
  whole : c.whole.Stands d.whole
  milli : c.fracMilli = d.milli

theorem DurComponent.Stands.is_iff {c : DurComponent} {d : DurPart} (stands : c.Stands d) : c.Is d ↔ d.whole < 2^63 :=
  ⟨fun same => stands.whole.is_iff.mp same.whole,
    fun small => ⟨stands.unit,stands.whole.is_iff.mpr small,stands.milli⟩⟩

theorem forall₂_is_iff {cs : List DurComponent} {ds : List DurPart} (stands : List.Forall₂ DurComponent.Stands cs ds) :
    List.Forall₂ DurComponent.Is cs ds ↔ ∀ d ∈ ds, d.whole < 2^63 := by
  induction stands with
  | nil => simp
  | cons here _ ih => rw [List.forall₂_cons,List.forall_mem_cons,here.is_iff,ih]

/-- Components whose whole parts are integers at all stand for whole parts that fit. -/
theorem whole_lt_of_is {cs : List DurComponent} {ds es : List DurPart} (stands : List.Forall₂ DurComponent.Stands cs ds)
    (same : List.Forall₂ DurComponent.Is cs es) : ∀ d ∈ ds, d.whole < 2^63 := by
  induction stands generalizing es with
  | nil => simp
  | cons here _ ih =>
    cases same with
    | cons own others =>
      refine List.forall_mem_cons.mpr ⟨?_,ih others⟩
      rcases here.whole.cases with fits | ⟨_,r,isReal⟩
      · exact here.whole.is_iff.mp fits
      · exact absurd own.whole (by rw [isReal]; exact Number.not_real_is r _)

/-- The piece writes the component: its number, with a fraction of one to three digits
where there is one, and its letter. -/
structure Spells (p : Piece) (d : DurPart) : Prop where
  unit : p.unit = d.unit.letter
  whole : numberValue p.whole = d.whole
  milli : fracValue p.frac = d.milli
  fraction : p.frac = [] ↔ d.milli = 0

/-- The text of components, before or behind the `T`. -/
inductive Rendering : Bool → List DurPart → List Char → Prop
  | nil {inTime} : Rendering inTime [] []
  | same {inTime p d ds text} : d.unit.inTime = inTime → Spells p d → Rendering inTime ds text →
      Rendering inTime (d::ds) (p.text ++ text)
  | time {p d ds text} : d.unit.inTime = true → Spells p d → Rendering true ds text →
      Rendering false (d::ds) ('T'::(p.text ++ text))

def Renders (ds : List DurPart) (s : String) : Prop := ∃ text, s.toList = 'P'::text ∧ Rendering false ds text

theorem digitChar_spec {d : Nat} (small : d < 10) : isDigit d.digitChar = true ∧ digitNat d.digitChar = d := by
  revert d
  decide

theorem map_digitChar_digits {digits : List Nat} (small : ∀ d ∈ digits, d < 10) :
    ∀ c ∈ digits.map Nat.digitChar, isDigit c = true := by
  intro c member
  obtain ⟨d,inside,rfl⟩ := List.mem_map.mp member
  exact (digitChar_spec (small d inside)).1

theorem numberValue_map_digitChar {digits : List Nat} (small : ∀ d ∈ digits, d < 10) :
    numberValue (digits.map Nat.digitChar) = value digits :=
  value_written (fun _ below => (digitChar_spec below).2) small

/-- The three digits of a fraction in thousandths. -/
def milliDigits (milli : Nat) : List Nat := [milli / 100 % 10,milli / 10 % 10,milli % 10]

theorem milliDigits_small (milli : Nat) : ∀ d ∈ milliDigits milli, d < 10 := by
  intro d member
  simp only [milliDigits,List.mem_cons,List.not_mem_nil,or_false] at member
  omega

/-- The piece that `render` writes for a component. -/
def spell (d : DurPart) : Piece where
  whole := (numeral d.whole).map Nat.digitChar
  frac := if d.milli = 0 then [] else (milliDigits d.milli).map Nat.digitChar
  unit := d.unit.letter
  whole_ne := by simpa using numeral_ne_nil d.whole
  whole_digits := map_digitChar_digits fun _ => lt_of_mem_numeral
  frac_digits := by
    split
    · exact fun _ none => nomatch none
    · exact map_digitChar_digits (milliDigits_small d.milli)
  frac_short := by
    split
    · exact Nat.zero_le 3
    · exact Nat.le_refl 3
  unit_no_digit := (letter_spec d.unit).1
  unit_no_point := (letter_spec d.unit).2.1

theorem spell_spells {d : DurPart} (milli : d.milli ≤ 999) : Spells (spell d) d where
  unit := rfl
  whole := by rw [spell,numberValue_map_digitChar fun _ => lt_of_mem_numeral,value_numeral]
  milli := by
    unfold spell
    dsimp only
    split
    · rename_i zero
      rw [zero]
      rfl
    · rw [fracValue,numberValue_map_digitChar (milliDigits_small d.milli)]
      simp only [milliDigits,value_cons,value_nil,List.length_map,List.length_cons,List.length_nil]
      omega
  fraction := by
    unfold spell
    dsimp only
    split
    · rename_i zero
      exact iff_of_true rfl zero
    · rename_i nonzero
      exact iff_of_false (by simp [milliDigits]) nonzero

def renderFrom : Bool → List DurPart → List Char
  | _,[] => []
  | inTime,d::ds =>
    if d.unit.inTime && !inTime then 'T'::((spell d).text ++ renderFrom true ds)
    else (spell d).text ++ renderFrom inTime ds

def render (ds : List DurPart) : String := String.ofList ('P'::renderFrom false ds)

theorem renderFrom_rendering {ds : List DurPart} (spelled : ∀ d ∈ ds, Spells (spell d) d)
    (sides : (ds.map DurPart.unit).Pairwise (fun u v => u.inTime = true → v.inTime = true)) (inTime : Bool)
    (here : inTime = true → ∀ d ∈ ds, d.unit.inTime = true) : Rendering inTime ds (renderFrom inTime ds) := by
  induction ds generalizing inTime with
  | nil => exact .nil
  | cons d ds ih =>
    rw [List.map_cons,List.pairwise_cons] at sides
    rw [List.forall_mem_cons] at spelled
    have go (inTime : Bool) (side : d.unit.inTime = inTime) : Rendering inTime ds (renderFrom inTime ds) := by
      apply ih spelled.2 sides.2
      intro time next member
      exact sides.1 next.unit (List.mem_map_of_mem member) (side.trans time)
    unfold renderFrom
    split
    · rename_i enters
      simp only [Bool.and_eq_true,Bool.not_eq_true'] at enters
      obtain ⟨time,rfl⟩ := enters
      exact .time time spelled.1 (go true time)
    · rename_i stays
      have side : d.unit.inTime = inTime := by
        cases inTime with
        | true => exact here rfl d (by simp)
        | false => simpa using stays
      exact .same side spelled.1 (go inTime side)

/-- A canonical duration is written by `render` as the grammar says. -/
theorem render_renders {ds : List DurPart} (canonical : Canonical ds) : Renders ds (render ds) := by
  refine ⟨renderFrom false ds,by simp [render],?_⟩
  apply renderFrom_rendering
  · exact fun d member => spell_spells (canonical.milli d member)
  · rcases canonical.units with week | ordered
    · rw [week]
      decide
    · have sides : unitOrder.Pairwise (fun u v => u.inTime = true → v.inTime = true) := by decide
      exact sides.sublist ordered
  · exact fun time => Bool.noConfusion time

/-! Ranks and the order of units. -/

theorem mem_unitOrder (u : DurUnit) : u ∈ unitOrder ↔ u ≠ .W := by
  cases u <;> decide

theorem unitOrder_pairwise : unitOrder.Pairwise (fun u v => unitRank u < unitRank v) := by decide

/-- Units in the order of the ranks, none of them weeks, are written in order. -/
theorem sublist_unitOrder_iff (units : List DurUnit) :
    units.Sublist unitOrder ↔ units.Pairwise (fun u v => unitRank u < unitRank v) ∧ ∀ u ∈ units, u ≠ .W := by
  constructor
  · intro inside
    exact ⟨unitOrder_pairwise.sublist inside,fun u member => (mem_unitOrder u).mp (inside.subset member)⟩
  · rintro ⟨increasing,noWeek⟩
    have distinct : units.Nodup := increasing.imp (fun less same => by rw [same] at less; omega)
    have inside : units.Subperm unitOrder :=
      List.subperm_of_subset distinct (fun u member => (mem_unitOrder u).mpr (noWeek u member))
    have : Std.Antisymm (fun u v : DurUnit => unitRank u < unitRank v) := ⟨fun _ _ less more => by omega⟩
    exact List.sublist_of_subperm_of_pairwise inside increasing unitOrder_pairwise

/-! Reading what is written. -/

theorem digitNat_lt {c : Char} (digit : isDigit c = true) : digitNat c < 10 := by
  simp only [isDigit,Bool.and_eq_true,decide_eq_true_eq] at digit
  have zero : '0'.toNat = 48 := rfl
  have nine : '9'.toNat = 57 := rfl
  simp only [digitNat]
  omega

theorem digit_is {d : Char} (digit : isDigit d = true) : (Number.fixnum (digitValue d)).Is (digitNat d) := by
  have small := digitNat_lt digit
  rw [digitValue_eq digit]
  exact Number.fixnum_is (Number.natCast_fits.mpr (by omega))

/-- The fold of a whole part; the induction is on its digits. -/
theorem foldl_pushDigit_stands {digits : List Char} (all : ∀ d ∈ digits, isDigit d = true) {whole : Number} {n : Nat}
    (before : whole.Stands n) : (digits.foldl pushDigit whole).Stands (n * 10^digits.length + numberValue digits) := by
  induction digits generalizing whole n with
  | nil => simpa [numberValue] using before
  | cons d digits ih =>
    obtain ⟨digit,others⟩ := List.forall_mem_cons.mp all
    have ten : (10 : Number).Is (10 : Nat) := ⟨10,rfl,rfl⟩
    have pushed : (pushDigit whole d).Stands (n * 10 + digitNat d) :=
      (before.mul ten (by decide)).add (digit_is digit).stands
    have read := ih others pushed
    rwa [Nat.add_mul,Nat.mul_assoc,← Nat.pow_succ',Nat.add_assoc,← numberValue_cons] at read

theorem Piece.component_stands (p : Piece) (u : DurUnit) :
    (p.component u).Stands ⟨u,numberValue p.whole,fracValue p.frac⟩ := by
  obtain ⟨d,digits,same⟩ := List.exists_cons_of_ne_nil p.whole_ne
  have all := p.whole_digits
  rw [same] at all
  obtain ⟨digit,others⟩ := List.forall_mem_cons.mp all
  refine ⟨rfl,?_,rfl⟩
  rw [Piece.component,same,readWhole,numberValue_cons]
  exact foldl_pushDigit_stands others (digit_is digit).stands

theorem Spells.stands {p : Piece} {d : DurPart} (spells : Spells p d) : (p.component d.unit).Stands d := by
  have stands := p.component_stands d.unit
  rwa [spells.whole,spells.milli] at stands

theorem Rendering.text_nil {inTime : Bool} {text : List Char} (rendering : Rendering inTime [] text) : text = [] := by
  cases rendering
  rfl

theorem mem_dropLast_cons {α : Type} {x y : α} {xs : List α} (member : x ∈ xs.dropLast) : x ∈ (y::xs).dropLast := by
  cases xs with
  | nil => cases member
  | cons z xs => exact List.mem_cons_of_mem y member

/-- Components that may still follow those read so far: their units go on in order, there
are no weeks, and only the last has a fraction. -/
structure Continues (lastRank : Int) (acc : List DurComponent) (ds : List DurPart) : Prop where
  increasing : (ds.map DurPart.unit).Pairwise (fun u v => unitRank u < unitRank v)
  later : ∀ d ∈ ds, lastRank < unitRank d.unit
  noWeek : ∀ d ∈ ds, d.unit ≠ .W
  noWeekBefore : ∀ dc ∈ acc, dc.unit ≠ .W
  fraction : ∀ d ∈ ds.dropLast, d.milli = 0

theorem Continues.tail {lastRank : Int} {acc : List DurComponent} {ds : List DurPart} {d : DurPart}
    (continues : Continues lastRank acc (d::ds)) (p : Piece) : Continues (unitRank d.unit) (p.component d.unit::acc) ds := by
  obtain ⟨increasing,_,noWeek,noWeekBefore,fraction⟩ := continues
  rw [List.map_cons,List.pairwise_cons] at increasing
  rw [List.forall_mem_cons] at noWeek
  refine ⟨increasing.2,?_,noWeek.2,List.forall_mem_cons.mpr ⟨noWeek.1,noWeekBefore⟩,?_⟩
  · exact fun next member => increasing.1 next.unit (List.mem_map_of_mem member)
  · exact fun next member => fraction next (mem_dropLast_cons member)

/-- One component, read in front of the text of the others. -/
theorem Reads.spelled {inTime : Bool} {lastRank : Int} {acc out : List DurComponent} {ds : List DurPart} {p : Piece}
    {d : DurPart} {text : List Char} (spells : Spells p d) (side : d.unit.inTime = inTime) (week : d.unit = .W → acc = [])
    (noWeek : ∀ dc ∈ acc, dc.unit ≠ .W) (later : lastRank < unitRank d.unit) (rest : Rendering inTime ds text)
    (fraction : ∀ e ∈ (d::ds).dropLast, e.milli = 0)
    (reads : Reads inTime inTime (unitRank d.unit) (p.component d.unit::acc) text out) :
    Reads inTime inTime lastRank acc (p.text ++ text) out := by
  refine .component p d.unit ?_ week noWeek later ?_ reads
  · rw [spells.unit,← side]
    exact classifyUnit_letter d.unit
  · intro some_fraction
    cases ds with
    | nil => exact rest.text_nil
    | cons next ds =>
      have zero : d.milli = 0 := fraction d (by simp)
      rw [← spells.milli] at zero
      exact absurd zero some_fraction

/-- What is read for components behind those read before. -/
def Behind (inTime : Bool) (lastRank : Int) (acc : List DurComponent) (text : List Char) (ds : List DurPart) : Prop :=
  ∃ cs, Reads inTime inTime lastRank acc text (acc.reverse ++ cs) ∧ List.Forall₂ DurComponent.Stands cs ds

theorem Continues.behind {inTime : Bool} {lastRank : Int} {acc : List DurComponent} {ds : List DurPart} {p : Piece}
    {d : DurPart} {text : List Char} (continues : Continues lastRank acc (d::ds)) (spells : Spells p d)
    (side : d.unit.inTime = inTime) (rest : Rendering inTime ds text)
    (behind : Behind inTime (unitRank d.unit) (p.component d.unit::acc) text ds) :
    Behind inTime lastRank acc (p.text ++ text) (d::ds) := by
  obtain ⟨cs,reads,stands⟩ := behind
  refine ⟨p.component d.unit::cs,?_,.cons spells.stands stands⟩
  rw [List.reverse_cons,List.append_assoc,List.singleton_append] at reads
  have noWeek := continues.noWeek d (by simp)
  exact reads.spelled spells side (fun week => absurd week noWeek) continues.noWeekBefore
    (continues.later d (by simp)) rest continues.fraction

/-- Components in order are read back; the induction is on how they were written. -/
theorem Rendering.behind {inTime : Bool} {ds : List DurPart} {text : List Char}
    (rendering : Rendering inTime ds text) (lastRank : Int) (acc : List DurComponent)
    (continues : Continues lastRank acc ds) : Behind inTime lastRank acc text ds := by
  induction rendering generalizing lastRank acc with
  | nil =>
    refine ⟨[],?_,.nil⟩
    rw [List.append_nil]
    exact .done
  | same side spells rest ih => exact continues.behind spells side rest (ih _ _ (continues.tail _))
  | @time p d ds text side spells rest ih =>
    obtain ⟨cs,reads,stands⟩ := continues.behind spells side rest (ih _ _ (continues.tail p))
    refine ⟨cs,.time ?_ reads,stands⟩
    simp [Piece.text]

theorem parse_renders {ds : List DurPart} (canonical : Canonical ds) {s : String} (renders : Renders ds s) :
    ∃ cs, parse s = .ok cs ∧ List.Forall₂ DurComponent.Stands cs ds := by
  obtain ⟨text,written,rendering⟩ := renders
  rcases canonical.units with week | ordered
  · -- a single component of weeks is written in front of nothing
    obtain ⟨d,rfl,isWeek⟩ := List.map_eq_singleton_iff.mp week
    cases rendering with
    | @same _ p d ds text side spells rest =>
      refine ⟨[p.component d.unit],parse_ok_iff.mpr ⟨_,written,?_⟩,.cons spells.stands .nil⟩
      apply Reads.spelled spells side (fun _ => rfl) (by simp) _ rest canonical.fraction
      · rw [rest.text_nil]
        exact .done
      · rw [isWeek]
        decide
    | time side => rw [isWeek] at side; cases side
  · obtain ⟨increasing,noWeek⟩ := (sublist_unitOrder_iff _).mp ordered
    have ranks (u : DurUnit) : -1 < unitRank u := by cases u <;> decide
    obtain ⟨cs,reads,stands⟩ := rendering.behind (-1) [] {
      increasing := increasing
      later := fun d _ => ranks d.unit
      noWeek := fun d member => noWeek d.unit (List.mem_map_of_mem member)
      noWeekBefore := fun _ none => nomatch none
      fraction := canonical.fraction}
    exact ⟨cs,parse_ok_iff.mpr ⟨text,written,reads⟩,stands⟩

/-! Only canonical durations are read. -/

theorem value_digits_lt {digits : List Char} (all : ∀ c ∈ digits, isDigit c = true) :
    numberValue digits < 10^digits.length := by
  have small : ∀ d ∈ digits.map digitNat, d < 10 := by
    intro d member
    obtain ⟨c,inside,rfl⟩ := List.mem_map.mp member
    exact digitNat_lt (all c inside)
  have below := value_lt small
  rwa [List.length_map] at below

theorem Piece.fracValue_le (p : Piece) : fracValue p.frac ≤ 999 := by
  have scaled : fracValue p.frac < 10^3 :=
    calc fracValue p.frac < 10^p.frac.length * 10^(3 - p.frac.length) :=
          Nat.mul_lt_mul_of_pos_right (value_digits_lt p.frac_digits) (Nat.pow_pos (by decide))
      _ = 10^3 := by rw [← pow_add,Nat.add_sub_cancel' p.frac_short]
  omega

/-- What is read from a text, behind the components read before. -/
structure ReadBehind (lastRank : Int) (acc : List DurComponent) (text : List Char) (new : List DurPart) : Prop where
  increasing : (new.map DurPart.unit).Pairwise (fun u v => unitRank u < unitRank v)
  later : ∀ d ∈ new, lastRank < unitRank d.unit
  milli : ∀ d ∈ new, d.milli ≤ 999
  fraction : ∀ d ∈ new.dropLast, d.milli = 0
  week : ∀ d ∈ new, d.unit = .W → acc = [] ∧ new = [d]
  behindWeek : ∀ dc ∈ acc, dc.unit = .W → new = []
  nothing : text = [] → new = []

theorem ReadBehind.nil (lastRank : Int) (acc : List DurComponent) (text : List Char) :
    ReadBehind lastRank acc text [] := by
  constructor <;> simp

theorem ReadBehind.cons {lastRank : Int} {acc : List DurComponent} {new : List DurPart} {rest : List Char} (p : Piece)
    (u : DurUnit) (week : u = .W → acc = []) (noWeek : ∀ dc ∈ acc, dc.unit ≠ .W) (later : lastRank < unitRank u)
    (fraction : fracValue p.frac ≠ 0 → rest = [])
    (behind : ReadBehind (unitRank u) (p.component u::acc) rest new) :
    ReadBehind lastRank acc (p.text ++ rest) (⟨u,numberValue p.whole,fracValue p.frac⟩::new) where
  increasing := by
    rw [List.map_cons,List.pairwise_cons]
    refine ⟨fun v member => ?_,behind.increasing⟩
    obtain ⟨d,inside,rfl⟩ := List.mem_map.mp member
    exact behind.later d inside
  later := List.forall_mem_cons.mpr ⟨later,fun d member => later.trans (behind.later d member)⟩
  milli := List.forall_mem_cons.mpr ⟨p.fracValue_le,behind.milli⟩
  fraction := by
    cases new with
    | nil => exact fun _ none => nomatch none
    | cons next new =>
      have zero : fracValue p.frac = 0 := by
        by_contra nonzero
        cases behind.nothing (fraction nonzero)
      rw [List.dropLast_cons_cons,List.forall_mem_cons]
      exact ⟨zero,behind.fraction⟩
  week := by
    rw [List.forall_mem_cons]
    constructor
    · intro isWeek
      exact ⟨week isWeek,by rw [behind.behindWeek _ List.mem_cons_self isWeek]⟩
    · intro d member isWeek
      cases (behind.week d member isWeek).1
  behindWeek := fun dc member isWeek => absurd isWeek (noWeek dc member)
  nothing := fun empty => by simp [Piece.text] at empty

/-- No run of digits has a value beyond the integers of the interpreter. -/
def ShortNumbers (text : List Char) : Prop :=
  ∀ run, run <:+: text → (∀ c ∈ run, isDigit c = true) → numberValue run < 2^63

/-- A run of digits does not cross a character that is none. -/
theorem run_inside {run before after : List Char} {u : Char} (letter : isDigit u = false)
    (digits : ∀ c ∈ run, isDigit c = true) (inside : run <:+: before ++ u::after) : run <:+: before ∨ run <:+: after := by
  have no_digits {rest : List Char} (start : rest <+: u::after) (all : ∀ c ∈ rest, isDigit c = true) : rest = [] := by
    rcases List.prefix_cons_iff.mp start with rfl | ⟨rest,rfl,_⟩
    · rfl
    · exact absurd (all u List.mem_cons_self) (by simp [letter])
  induction before with
  | nil =>
    rcases List.infix_cons_iff.mp inside with start | later
    · rw [no_digits start digits]
      exact Or.inl (List.infix_refl [])
    · exact Or.inr later
  | cons c before ih =>
    rcases List.infix_cons_iff.mp inside with start | later
    · rcases List.prefix_or_prefix_of_prefix start (List.prefix_append (c::before) (u::after)) with within | ⟨rest,rfl⟩
      · exact Or.inl within.isInfix
      · have behind : rest <+: u::after := (List.prefix_append_right_inj (c::before)).mp start
        rw [no_digits behind fun d member => digits d (List.mem_append_right _ member),List.append_nil]
        exact Or.inl (List.infix_refl _)
    · exact (ih later).imp_left fun within => within.trans (List.suffix_cons c before).isInfix

theorem numberValue_le {run digits : List Char} (inside : run <:+: digits) : numberValue run ≤ numberValue digits := by
  obtain ⟨before,after,rfl⟩ := inside
  have joined (xs ys : List Char) : numberValue (xs ++ ys) = numberValue xs * 10^ys.length + numberValue ys := by
    induction xs with
    | nil => simp [numberValue]
    | cons x xs ih =>
      rw [List.cons_append,numberValue_cons,numberValue_cons,ih,List.length_append,pow_add]
      ring
  rw [joined,joined]
  calc numberValue run ≤ numberValue run * 10^after.length := Nat.le_mul_of_pos_right _ (Nat.pow_pos (by decide))
    _ ≤ (numberValue before * 10^run.length + numberValue run) * 10^after.length :=
      Nat.mul_le_mul_right _ (Nat.le_add_left _ _)
    _ ≤ _ := Nat.le_add_right _ _

theorem shortNumbers_nil : ShortNumbers [] := by
  intro run inside _
  rw [List.eq_nil_of_infix_nil inside]
  decide

theorem shortNumbers_cons {u : Char} (letter : isDigit u = false) (text : List Char) :
    ShortNumbers (u::text) ↔ ShortNumbers text := by
  constructor
  · exact fun short run inside => short run (inside.trans (List.suffix_cons u text).isInfix)
  · intro short run inside digits
    rcases @run_inside run [] text u letter digits inside with none | later
    · exact shortNumbers_nil run none digits
    · exact short run later digits

theorem shortNumbers_append {before after : List Char} {u : Char} (letter : isDigit u = false) :
    ShortNumbers (before ++ u::after) ↔ ShortNumbers before ∧ ShortNumbers after := by
  constructor
  · intro short
    have behind : ShortNumbers (u::after) := fun run inside => short run (inside.trans (List.suffix_append _ _).isInfix)
    exact ⟨fun run inside => short run (inside.trans (List.prefix_append _ _).isInfix),
      (shortNumbers_cons letter after).mp behind⟩
  · rintro ⟨first,second⟩ run inside digits
    exact (run_inside letter digits inside).elim (fun here => first run here digits) (fun here => second run here digits)

theorem shortNumbers_digits {digits : List Char} (all : ∀ c ∈ digits, isDigit c = true) :
    ShortNumbers digits ↔ numberValue digits < 2^63 :=
  ⟨fun short => short digits (List.infix_refl _) all,
    fun small _ inside _ => (numberValue_le inside).trans_lt small⟩

theorem Piece.shortNumbers (p : Piece) (rest : List Char) :
    ShortNumbers (p.text ++ rest) ↔ numberValue p.whole < 2^63 ∧ ShortNumbers rest := by
  have whole := shortNumbers_digits p.whole_digits
  rw [p.text_append,shortNumbers_append p.unit_no_digit]
  refine and_congr_left fun _ => ?_
  cases frac : p.frac with
  | nil => rw [dotted,List.append_nil,whole]
  | cons d digits =>
    have point : isDigit '.' = false := by decide
    have small : ShortNumbers p.frac := by
      rw [shortNumbers_digits p.frac_digits]
      calc numberValue p.frac < 10^p.frac.length := value_digits_lt p.frac_digits
        _ ≤ 10^3 := Nat.pow_le_pow_right (by decide) p.frac_short
        _ < 2^63 := by decide
    rw [frac] at small
    rw [dotted,shortNumbers_append point,whole]
    exact and_iff_left small

theorem Reads.behind {inTime sawT : Bool} {lastRank : Int} {acc out : List DurComponent} {text : List Char}
    (reads : Reads inTime sawT lastRank acc text out) :
    ∃ new cs, out = acc.reverse ++ cs ∧ List.Forall₂ DurComponent.Stands cs new ∧ ReadBehind lastRank acc text new ∧
      (ShortNumbers text ↔ ∀ d ∈ new, d.whole < 2^63) := by
  induction reads with
  | done => exact ⟨[],[],(List.append_nil _).symm,.nil,.nil _ _ _,by simp [shortNumbers_nil]⟩
  | time more _ ih =>
    obtain ⟨new,cs,rfl,stands,behind,short⟩ := ih
    refine ⟨new,cs,rfl,stands,{behind with nothing := fun empty => nomatch empty},?_⟩
    rw [shortNumbers_cons (by decide),short]
  | component p u _ week noWeek later fraction _ ih =>
    obtain ⟨new,cs,rfl,stands,behind,short⟩ := ih
    refine ⟨_,_,by simp,.cons (p.component_stands u) stands,behind.cons p u week noWeek later fraction,?_⟩
    rw [p.shortNumbers,List.forall_mem_cons,short]

theorem parse_stands {s : String} {cs : List DurComponent} (ok : parse s = .ok cs) :
    ∃ ds, Canonical ds ∧ List.Forall₂ DurComponent.Stands cs ds ∧
      (ShortNumbers s.toList ↔ ∀ d ∈ ds, d.whole < 2^63) := by
  obtain ⟨text,written,reads⟩ := parse_ok_iff.mp ok
  obtain ⟨ds,cs,rfl,stands,behind,short⟩ := reads.behind
  rw [written,shortNumbers_cons (by decide)]
  refine ⟨ds,⟨?_,behind.milli,behind.fraction⟩,stands,short⟩
  by_cases week : ∃ d ∈ ds, d.unit = .W
  · obtain ⟨d,member,isWeek⟩ := week
    refine Or.inl ?_
    rw [(behind.week d member isWeek).2,List.map_singleton,isWeek]
  · refine Or.inr ((sublist_unitOrder_iff _).mpr ⟨behind.increasing,?_⟩)
    intro u member isWeek
    obtain ⟨d,inside,rfl⟩ := List.mem_map.mp member
    exact week ⟨d,inside,isWeek⟩

/-! The length of a duration. -/

def unitSeconds : DurUnit → Nat
  | .Y => 365 * 86400
  | .Mo => 30 * 86400
  | .W => 7 * 86400
  | .D => 86400
  | .H => 3600
  | .Mi => 60
  | .S => 1

def milliseconds (ds : List DurPart) : Nat := (ds.map fun d => (1000 * d.whole + d.milli) * unitSeconds d.unit).sum

theorem totalMilliseconds_stands {cs : List DurComponent} {ds : List DurPart} (same : List.Forall₂ DurComponent.Is cs ds)
    (milli : ∀ d ∈ ds, d.milli ≤ 999) : (totalMilliseconds cs).Stands (milliseconds ds) := by
  induction same with
  | nil => exact Number.zero_is.stands
  | @cons c d cs ds here _ ih =>
    obtain ⟨small,others⟩ := List.forall_mem_cons.mp milli
    have unit : (Number.fixnum (unitMilliseconds c.unit)).Is (1000 * unitSeconds d.unit : Nat) := by
      rw [here.unit]
      cases d.unit <;> exact ⟨_,rfl,rfl⟩
    have seconds : (Number.fixnum ((unitMilliseconds c.unit).tdiv 1000)).Is (unitSeconds d.unit) := by
      rw [here.unit]
      cases d.unit <;> exact ⟨_,rfl,rfl⟩
    have positive : 0 < unitSeconds d.unit := by cases d.unit <;> decide
    have fraction : (Number.fixnum c.fracMilli).Is d.milli := by
      rw [here.milli]
      exact Number.fixnum_is (Number.natCast_fits.mpr (by omega))
    have sum := ((here.whole.stands.mul unit (by omega)).add (fraction.stands.mul seconds positive)).add (ih others)
    have regrouped : milliseconds (d::ds) =
        d.whole * (1000 * unitSeconds d.unit) + d.milli * unitSeconds d.unit + milliseconds ds := by
      rw [milliseconds,List.map_cons,List.sum_cons,← milliseconds]
      ring
    rw [regrouped]
    exact sum

/-- Canonical durations and texts: a canonical duration has a text, and any text of it is read
back as that duration exactly when its whole parts fit the integers of the interpreter; its
total is the sum over the components exactly when that sum fits; and what is read from a text is
canonical exactly when the numbers of the text fit. -/
theorem duration_round_trip (ds : List DurPart) (s : String) :
    (Canonical ds →
      Renders ds (render ds) ∧
        (Renders ds s →
          ((∃ cs, parse s = .ok cs ∧ List.Forall₂ DurComponent.Is cs ds) ↔ ∀ d ∈ ds, d.whole < 2^63)) ∧
        ∀ cs, List.Forall₂ DurComponent.Is cs ds →
          ((totalMilliseconds cs).Is (milliseconds ds) ↔ milliseconds ds < 2^63)) ∧
      ∀ cs, parse s = .ok cs → ((∃ es, Canonical es ∧ List.Forall₂ DurComponent.Is cs es) ↔ ShortNumbers s.toList) := by
  refine ⟨fun canonical => ⟨render_renders canonical,fun renders => ?_,fun cs same => ?_⟩,fun cs ok => ?_⟩
  · obtain ⟨cs,ok,stands⟩ := parse_renders canonical renders
    rw [← forall₂_is_iff stands]
    refine ⟨?_,fun same => ⟨cs,ok,same⟩⟩
    rintro ⟨cs',ok',same⟩
    cases ok.symm.trans ok'
    exact same
  · exact (totalMilliseconds_stands same canonical.milli).is_iff
  · obtain ⟨es,canonical,stands,short⟩ := parse_stands ok
    rw [short]
    refine ⟨?_,fun small => ⟨es,canonical,(forall₂_is_iff stands).mpr small⟩⟩
    rintro ⟨_,_,same⟩
    exact whole_lt_of_is stands same

/-- One second more than the integers reach: the whole part that is read is a real. -/
theorem long_seconds_not_read :
    Canonical [⟨.S,9223372036854775809,0⟩] ∧ render [⟨.S,9223372036854775809,0⟩] = "PT9223372036854775809S" ∧
      parse "PT9223372036854775809S" = .ok [⟨.S,.real (.ofModel (.ofInt 9223372036854775808)),0⟩] ∧
      ¬ ∃ ds, Canonical ds ∧ List.Forall₂ DurComponent.Is [⟨.S,.real (.ofModel (.ofInt 9223372036854775808)),0⟩] ds := by
  refine ⟨⟨Or.inr (by decide),by simp,by simp⟩,?_,by decide +kernel,?_⟩
  · decide +kernel
  · rintro ⟨_,_,_ | ⟨here,_⟩⟩
    exact Number.not_real_is _ _ here.whole

/-! Where a point may stand. -/

/-- The text does not end inside a number. -/
def Closed (before : List Char) : Prop := ∀ c ∈ before.getLast?, isDigit c = false

/-- There is at most one point, and it stands in the number of the last component. -/
structure PointOnLast (s : List Char) : Prop where
  single : s.count '.' ≤ 1
  last : ∀ a b, s = a ++ '.'::b → ∃ before p, Closed before ∧ s = before ++ Piece.text p ∧ a = before ++ p.whole ∧
    b = p.frac ++ [p.unit]

/-- A fraction of zeros on a component that is not the last. -/
def ZeroFractionEarlier (s : List Char) : Prop :=
  ∃ a zeros u rest, s = a ++ '.'::(zeros ++ u::rest) ∧ zeros ≠ [] ∧ (∀ c ∈ zeros, c = '0') ∧ isDigit u = false ∧
    rest ≠ []

theorem no_point_of_digits {digits : List Char} (all : ∀ d ∈ digits, isDigit d = true) : '.' ∉ digits :=
  fun member => Bool.false_ne_true (all '.' member)

namespace Piece

theorem no_point_behind (p : Piece) : '.' ∉ p.frac ++ [p.unit] := by
  simp only [List.mem_append,List.mem_singleton,not_or]
  exact ⟨no_point_of_digits p.frac_digits,fun same => p.unit_no_point same.symm⟩

/-- The only point of a piece introduces its fraction. -/
theorem text_split (p : Piece) {a b : List Char} (split : p.text = a ++ '.'::b) :
    p.frac ≠ [] ∧ a = p.whole ∧ b = p.frac ++ [p.unit] := by
  have wholeClear := no_point_of_digits p.whole_digits
  cases frac : p.frac with
  | nil =>
    have inside : '.' ∈ p.text := by simp [split]
    have behind := p.no_point_behind
    simp only [text,number,frac,dotted,List.append_nil,List.mem_append] at inside behind
    exact absurd (Or.inr (inside.resolve_left wholeClear)) behind
  | cons d digits =>
    have own : p.text = p.whole ++ '.'::(p.frac ++ [p.unit]) := by simp [text,number,frac,dotted]
    rw [own] at split
    obtain ⟨same,_,behind⟩ := (List.append_cons_inj_of_notMem wholeClear p.no_point_behind).mp split
    exact ⟨by simp,same.symm,by rw [← behind,frac]⟩

theorem closed_text (p : Piece) : Closed p.text := by
  intro c last
  obtain rfl : p.unit = c := by simpa [text] using last
  exact p.unit_no_digit

end Piece

theorem Closed.append {first second : List Char} (closed : Closed first) (closed' : Closed second) :
    Closed (first ++ second) := by
  intro c last
  rw [List.getLast?_append] at last
  cases ends : second.getLast? with
  | none =>
    rw [ends] at last
    exact closed c last
  | some d =>
    rw [ends] at last
    exact closed' c (by rw [ends]; exact last)

theorem closed_nil : Closed [] := fun _ none => nomatch none

theorem closed_letter {c : Char} (letter : isDigit c = false) : Closed [c] := by
  intro d last
  obtain rfl : c = d := by simpa using last
  exact letter

/-- Every point of a text that is read belongs to the number of a component, and only the
last component has a fraction that is not zero. -/
theorem Reads.points {inTime sawT : Bool} {lastRank : Int} {acc out : List DurComponent} {text : List Char}
    (reads : Reads inTime sawT lastRank acc text out) {a b : List Char} (split : text = a ++ '.'::b) :
    ∃ before p rest, Closed before ∧ text = before ++ (Piece.text p ++ rest) ∧ a = before ++ p.whole ∧
      b = p.frac ++ p.unit::rest ∧ p.frac ≠ [] ∧ (fracValue p.frac ≠ 0 → rest = []) := by
  induction reads generalizing a with
  | done => simp at split
  | @time inTime lastRank acc cs out _ _ ih =>
    cases a with
    | nil => simp at split
    | cons t a =>
      obtain ⟨rfl,inside⟩ := List.cons.inj split
      obtain ⟨before,p,rest,closed,rfl,rfl,behind⟩ := ih inside
      exact ⟨'T'::before,p,rest,(closed_letter (by decide)).append closed,rfl,rfl,behind⟩
  | @component inTime sawT lastRank acc rest out p u _ _ _ _ fraction _ ih =>
    rcases List.append_eq_append_iff.mp split with ⟨a',rfl,inside⟩ | ⟨c,own,behind⟩
    · obtain ⟨before,q,rest',closed,rfl,rfl,found⟩ := ih inside
      exact ⟨p.text ++ before,q,rest',p.closed_text.append closed,by simp,by simp,found⟩
    · cases c with
      | nil =>
        -- the point would begin the rest
        rw [List.append_nil] at own
        obtain ⟨before,q,rest',closed,same,start,found⟩ := @ih [] behind.symm
        obtain ⟨none,none'⟩ := List.append_eq_nil_iff.mp start.symm
        exact absurd none' q.whole_ne
      | cons c mine =>
        obtain ⟨rfl,rfl⟩ := List.cons.inj behind
        obtain ⟨some_fraction,rfl,rfl⟩ := p.text_split own
        exact ⟨[],p,rest,closed_nil,rfl,rfl,by simp,some_fraction,fraction⟩

theorem zeros_of_fracValue {p : Piece} (zero : fracValue p.frac = 0) : ∀ c ∈ p.frac, c = '0' := by
  have digits : value (p.frac.map digitNat) = 0 := by
    rcases Nat.mul_eq_zero.mp zero with none | power
    · exact none
    · exact absurd power (Nat.pos_iff_ne_zero.mp (Nat.pow_pos (by decide)))
  intro c member
  have own := value_eq_zero.mp digits (digitNat c) (List.mem_map_of_mem member)
  have digit := p.frac_digits c member
  simp only [isDigit,Bool.and_eq_true,decide_eq_true_eq] at digit
  simp only [digitNat] at own
  exact Char.toNat_inj.mp (by omega)

/-- Behind the point of a last component nothing but its fraction and letter stand. -/
theorem PointOnLast.no_zeros {s : List Char} (on : PointOnLast s) : ¬ ZeroFractionEarlier s := by
  rintro ⟨a,zeros,u,rest,split,_,_,letter,more⟩
  obtain ⟨_,p,_,_,_,behind⟩ := on.last a _ split
  rcases List.append_eq_append_iff.mp behind with ⟨x,frac,later⟩ | ⟨x,zeros',later⟩
  · cases x with
    | nil => exact more (List.cons.inj later).2
    | cons c x =>
      obtain ⟨rfl,_⟩ := List.cons.inj later
      have digit := p.frac_digits u (by rw [frac]; simp)
      rw [letter] at digit
      cases digit
  · cases x with
    | nil => exact more (List.cons.inj later).2.symm
    | cons c x =>
      have length := congrArg List.length later
      simp at length

theorem pointOnLast_of_points {s : List Char} (clear : ¬ ZeroFractionEarlier s)
    (points : ∀ a b, s = a ++ '.'::b → ∃ before p rest, Closed before ∧ s = before ++ (Piece.text p ++ rest) ∧
      a = before ++ p.whole ∧ b = p.frac ++ p.unit::rest ∧ p.frac ≠ [] ∧ (fracValue p.frac ≠ 0 → rest = [])) :
    PointOnLast s := by
  have last (a b : List Char) (split : s = a ++ '.'::b) : ∃ before p, Closed before ∧ s = before ++ Piece.text p ∧
      a = before ++ p.whole ∧ b = p.frac ++ [p.unit] := by
    obtain ⟨before,p,rest,closed,whole,rfl,rfl,some_fraction,fraction⟩ := points a b split
    obtain rfl : rest = [] := by
      by_contra more
      have zero : fracValue p.frac = 0 := by
        by_contra nonzero
        exact more (fraction nonzero)
      exact clear ⟨_,p.frac,p.unit,rest,split,some_fraction,zeros_of_fracValue zero,p.unit_no_digit,more⟩
    exact ⟨before,p,closed,by simpa using whole,rfl,rfl⟩
  refine ⟨?_,last⟩
  by_cases some_point : '.' ∈ s
  · obtain ⟨a,b,split,first⟩ := List.eq_append_cons_of_mem some_point
    obtain ⟨_,p,_,_,_,rfl⟩ := last a b split
    rw [split,List.count_append,List.count_cons_self,List.count_eq_zero_of_not_mem first,
      List.count_eq_zero_of_not_mem p.no_point_behind]
  · rw [List.count_eq_zero_of_not_mem some_point]
    exact Nat.zero_le 1

/-- In an accepted text the only point stands in the number of the last component, exactly
when no earlier component is written with a fraction of zeros. -/
theorem point_on_last_iff (s : String) (cs : List DurComponent) (ok : parse s = .ok cs) :
    PointOnLast s.toList ↔ ¬ ZeroFractionEarlier s.toList := by
  refine ⟨PointOnLast.no_zeros,fun clear => pointOnLast_of_points clear ?_⟩
  obtain ⟨text,written,reads⟩ := parse_ok_iff.mp ok
  intro a b split
  rw [written] at split ⊢
  cases a with
  | nil => simp at split
  | cons c a =>
    obtain ⟨rfl,inside⟩ := List.cons.inj split
    obtain ⟨before,p,rest,closed,rfl,rfl,behind⟩ := reads.points inside
    exact ⟨'P'::before,p,rest,(closed_letter (by decide)).append closed,rfl,rfl,behind⟩

theorem point_on_last_half_day :
    parse "P1Y2.5D" = .ok [⟨.Y,1,0⟩,⟨.D,2,500⟩] ∧
      (PointOnLast "P1Y2.5D".toList ↔ ¬ ZeroFractionEarlier "P1Y2.5D".toList) :=
  ⟨by decide +kernel,point_on_last_iff "P1Y2.5D" [⟨.Y,1,0⟩,⟨.D,2,500⟩] (by decide +kernel)⟩

/-- Two fractions of zeros, the first on a component that is not the last. -/
theorem zero_fractions_accepted :
    parse "P1.0Y2.0D" = .ok [⟨.Y,1,0⟩,⟨.D,2,0⟩] ∧ ¬ PointOnLast "P1.0Y2.0D".toList := by
  refine ⟨by decide +kernel,fun on => ?_⟩
  have two : "P1.0Y2.0D".toList.count '.' = 2 := by decide
  have single := on.single
  omega

end WarpLoop.Taskweft.Iso8601
