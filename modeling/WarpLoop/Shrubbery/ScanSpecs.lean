import WarpLoop.Shrubbery.Scan

/-! What the scanners do, said with the state of a scan: the bracket depth and whether
a string is open. -/
namespace WarpLoop.Shrubbery

def scanStep (state : Int × Bool) (c : Char) : Int × Bool :=
  if c = '"' then (state.1,!state.2)
  else if state.2 then state
  else if isOpen c then (state.1 + 1,state.2)
  else if isClose c then (state.1 - 1,state.2)
  else state

def scan (state : Int × Bool) (t : Text) : Int × Bool := t.foldl scanStep state

def outside : Int × Bool := (0,false)

/-- The scan meets no `sep` outside brackets and strings. -/
def Avoids (sep : Char) : Int × Bool → Text → Prop
  | _,[] => True
  | state,c::rest => (c = sep → state ≠ outside) ∧ Avoids sep (scanStep state c) rest

theorem scan_append (state : Int × Bool) (t u : Text) : scan state (t ++ u) = scan (scan state t) u := List.foldl_append

theorem avoids_append (sep : Char) (state : Int × Bool) (t u : Text) :
    Avoids sep state (t ++ u) ↔ Avoids sep state t ∧ Avoids sep (scan state t) u := by
  induction t generalizing state with
  | nil => simp [Avoids,scan]
  | cons c rest ih =>
    rw [List.cons_append,Avoids,Avoids,ih,and_assoc]
    rfl

theorem avoids_of_not_mem {sep : Char} (state : Int × Bool) {t : Text} (absent : sep ∉ t) : Avoids sep state t := by
  induction t generalizing state with
  | nil => trivial
  | cons c rest ih =>
    simp only [List.mem_cons,not_or] at absent
    exact ⟨fun same => absurd same.symm absent.1,ih _ absent.2⟩

/-- The characters that change the state of a scan. -/
def isSpecial (c : Char) : Bool := c = '"' || isOpen c || isClose c

theorem scanStep_plain (state : Int × Bool) {c : Char} (plain : isSpecial c = false) : scanStep state c = state := by
  simp only [isSpecial,Bool.or_eq_false_iff,decide_eq_false_iff_not] at plain
  simp [scanStep,plain]

theorem scan_plain (state : Int × Bool) {t : Text} (plain : ∀ c ∈ t, isSpecial c = false) : scan state t = state := by
  induction t generalizing state with
  | nil => rfl
  | cons c rest ih =>
    rw [scan,List.foldl_cons,scanStep_plain state (plain c List.mem_cons_self)]
    exact ih state (fun d inside => plain d (List.mem_cons_of_mem _ inside))

/-! Splitting. -/

theorem splitArgsFrom_cons (strip : Text → Text) (state : Int × Bool) (cur : Text) (c : Char) (rest : Text) :
    splitArgsFrom strip state.1 state.2 cur (c::rest) =
      if c = ',' ∧ state = outside then strip cur::splitArgsFrom strip 0 false [] rest
      else splitArgsFrom strip (scanStep state c).1 (scanStep state c).2 (cur ++ [c]) rest := by
  obtain ⟨depth,inStr⟩ := state
  rw [splitArgsFrom]
  by_cases quote : c = '"'
  · simp [scanStep,quote]
  · by_cases comma : c = ','
    · subst c
      have brackets : isOpen ',' = false ∧ isClose ',' = false := by decide
      by_cases zero : depth = 0 <;> cases inStr <;> simp [scanStep,outside,brackets,zero]
    · cases inStr with
      | true => simp [scanStep,quote,comma]
      | false =>
        cases opens : isOpen c <;> cases closes : isClose c <;> simp [scanStep,quote,comma,opens,closes]

theorem splitArgsFrom_append (strip : Text → Text) {state : Int × Bool} (cur : Text) {t : Text}
    (avoids : Avoids ',' state t) (rest : Text) :
    splitArgsFrom strip state.1 state.2 cur (t ++ rest) =
      splitArgsFrom strip (scan state t).1 (scan state t).2 (cur ++ t) rest := by
  induction t generalizing state cur with
  | nil => simp [scan]
  | cons c later ih =>
    obtain ⟨here,avoids⟩ := avoids
    rw [List.cons_append,splitArgsFrom_cons,if_neg (fun both => here both.1 both.2),ih _ avoids,List.append_assoc]
    rfl

theorem splitFirstColonFrom_cons (state : Int × Bool) (c : Char) (rest : Text) :
    splitFirstColonFrom state.1 state.2 (c::rest) =
      if c = ':' ∧ state = outside then some ([],rest)
      else push c (splitFirstColonFrom (scanStep state c).1 (scanStep state c).2 rest) := by
  obtain ⟨depth,inStr⟩ := state
  rw [splitFirstColonFrom]
  by_cases quote : c = '"'
  · simp [scanStep,quote]
  · by_cases colon : c = ':'
    · subst c
      have brackets : isOpen ':' = false ∧ isClose ':' = false := by decide
      cases inStr <;> simp [scanStep,outside,brackets]
    · cases inStr with
      | true => simp [scanStep,quote,colon]
      | false =>
        cases opens : isOpen c <;> cases closes : isClose c <;> simp [scanStep,quote,colon,opens,closes]

theorem splitFirstColonFrom_eq_some {state : Int × Bool} {s before after : Text} :
    splitFirstColonFrom state.1 state.2 s = some (before,after) ↔
      s = before ++ ':'::after ∧ Avoids ':' state before ∧ scan state before = outside := by
  induction s generalizing state before with
  | nil => simp [splitFirstColonFrom]
  | cons c rest ih =>
    rw [splitFirstColonFrom_cons]
    by_cases stop : c = ':' ∧ state = outside
    · rw [if_pos stop]
      obtain ⟨rfl,rfl⟩ := stop
      cases before with
      | nil => simp [Avoids,scan,eq_comm]
      | cons d more =>
        simp only [Option.some.injEq,Prod.mk.injEq,reduceCtorEq,false_and,List.cons_append,List.cons.injEq,false_iff]
        rintro ⟨⟨rfl,_⟩,avoids,_⟩
        exact avoids.1 rfl rfl
    · rw [if_neg stop]
      cases before with
      | nil =>
        simp only [push,Option.map_eq_some_iff,Prod.mk.injEq,reduceCtorEq,false_and,and_false,exists_false,
          List.nil_append,List.cons.injEq,false_iff]
        rintro ⟨⟨rfl,_⟩,_,now⟩
        exact stop ⟨rfl,now⟩
      | cons d more =>
        have later : splitFirstColonFrom (scanStep state c).1 (scanStep state c).2 rest = some (more,after) ↔ _ := ih
        constructor
        · intro found
          obtain ⟨⟨first,second⟩,split,same⟩ := Option.map_eq_some_iff.mp found
          obtain ⟨head,rfl⟩ := Prod.mk.inj same
          obtain ⟨rfl,rfl⟩ := List.cons.inj head
          obtain ⟨rfl,avoids,closed⟩ := later.mp split
          exact ⟨rfl,⟨fun colon now => stop ⟨colon,now⟩,avoids⟩,closed⟩
        · rintro ⟨split,avoids,closed⟩
          obtain ⟨rfl,rfl⟩ := List.cons.inj split
          rw [later.mpr ⟨rfl,avoids.2,closed⟩]
          rfl

/-- The first colon outside brackets and strings. -/
theorem splitFirstColon_eq_some {s before after : Text} :
    splitFirstColonAtDepth0 s = some (before,after) ↔
      s = before ++ ':'::after ∧ Avoids ':' outside before ∧ scan outside before = outside :=
  @splitFirstColonFrom_eq_some outside s before after

theorem splitName_eq_some {depth : Int} {s before rest : Text} (found : splitName depth s = some (before,rest)) :
    s = before ++ '('::rest := by
  induction s generalizing depth before with
  | nil => cases found
  | cons c later ih =>
    have pushed {deeper : Int} (inner : push c (splitName deeper later) = some (before,rest)) :
        c::later = before ++ '('::rest := by
      obtain ⟨⟨first,second⟩,split,same⟩ := Option.map_eq_some_iff.mp inner
      obtain ⟨rfl,rfl⟩ := Prod.mk.inj same
      rw [ih split]
      rfl
    rw [splitName] at found
    split at found
    · rename_i stop
      obtain ⟨rfl,rfl⟩ := Prod.mk.inj (Option.some.inj found)
      rw [stop.1]
      rfl
    · split at found
      · exact pushed found
      · split at found
        · exact pushed found
        · split at found
          · cases found
          · exact pushed found

theorem parseCall_eq_some {strip : Text → Text} {text name : Text} {args : List Text} :
    parseCall strip text = some (name,args) ↔
      ∃ before rest start, (∀ first, (strip text).head? = some first → first ≠ '"' ∧ first ≠ '\'') ∧
        splitName 0 (strip text) = some (before,rest) ∧ (strip text).getLast? = some ')' ∧
        (strip before).head? = some start ∧ idStartChar start = true ∧ name = strip before ∧
        args = splitArgs strip rest.dropLast := by
  unfold parseCall
  dsimp only
  cases whole : strip text with
  | nil => simp [splitName]
  | cons first more =>
    simp only [List.head?_cons,Option.some.injEq,forall_eq']
    split
    · rename_i quoted
      simp only [reduceCtorEq,false_iff,not_exists,not_and]
      intro _ _ _ plain
      exact absurd quoted (by simp [plain])
    · rename_i plain
      simp only [not_or] at plain
      cases splitName 0 (first::more) with
      | none => simp
      | some parts =>
        obtain ⟨before,rest⟩ := parts
        by_cases closed : (first::more).getLast? = some ')'
        · cases start : (strip before).head? with
          | none => simp +contextual [closed,start,plain]
          | some c =>
            cases named : idStartChar c with
            | true =>
              constructor
              · intro found
                simp only [closed,start,named,ne_eq,not_true_eq_false,if_false,if_true] at found
                obtain ⟨rfl,rfl⟩ := Prod.mk.inj (Option.some.inj found)
                exact ⟨before,rest,c,plain,rfl,closed,start,named,rfl,rfl⟩
              · rintro ⟨before',rest',_,_,same,_,_,_,rfl,rfl⟩
                obtain ⟨rfl,rfl⟩ := Prod.mk.inj (Option.some.inj same)
                simp only [closed,start,named,ne_eq,not_true_eq_false,if_false,if_true]
            | false => simp [closed,start,named,plain]
        · simp [closed]

/-! Stripping. -/

/-- Stripping takes a part of the text. -/
def Trims (strip : Text → Text) : Prop := ∀ t, strip t <:+: t

theorem stripWith_parts (front back : Char → Bool) (t : Text) :
    ∃ u v, t = u ++ stripWith front back t ++ v ∧ (∀ c ∈ u, front c = true) ∧ ∀ c ∈ v, back c = true := by
  refine ⟨t.takeWhile front,(t.dropWhile front).rtakeWhile back,?_,?_,?_⟩
  · rw [List.append_assoc,stripWith,List.rdropWhile_append_rtakeWhile,List.takeWhile_append_dropWhile]
  · exact fun c inside => List.mem_takeWhile_imp inside
  · exact fun c inside => List.mem_rtakeWhile_imp inside

theorem trims_stripWith (front back : Char → Bool) : Trims (stripWith front back) := by
  intro t
  obtain ⟨u,v,parts,_⟩ := stripWith_parts front back t
  exact ⟨u,v,parts.symm⟩

theorem stripWith_pad {front : Char → Bool} (back : Char → Bool) {pad : Text} (spaces : ∀ c ∈ pad, front c = true)
    (t : Text) : stripWith front back (pad ++ t) = stripWith front back t := by
  have gone : pad.dropWhile front = [] := List.dropWhile_eq_nil_iff.mpr spaces
  rw [stripWith,List.dropWhile_append,gone]
  rfl

/-- Text that neither begins nor ends with a space. -/
def Solid (space : Char → Bool) (t : Text) : Prop :=
  (∀ c, t.head? = some c → space c = false) ∧ ∀ c, t.getLast? = some c → space c = false

theorem solid_stripWith (space : Char → Bool) (t : Text) : Solid space (stripWith space space t) := by
  refine ⟨fun c first => ?_,fun c last => ?_⟩
  · obtain ⟨rest,split⟩ := List.rdropWhile_prefix space (t.dropWhile space)
    have head : (t.dropWhile space).head? = some c := by
      rw [← split,List.head?_append]
      exact congrArg (·.or rest.head?) first
    have kept := List.head?_dropWhile_not space t
    rw [head] at kept
    simpa using kept
  · change ((t.dropWhile space).rdropWhile space).getLast? = some c at last
    have nonempty : (t.dropWhile space).rdropWhile space ≠ [] := by
      intro empty
      rw [empty] at last
      cases last
    have kept := List.rdropWhile_last_not space (t.dropWhile space) nonempty
    rw [List.getLast?_eq_some_getLast nonempty] at last
    rw [Option.some.inj last] at kept
    simpa using kept

theorem rdropWhile_spaces {space : Char → Bool} {w v : Text} (back : ∀ c ∈ v, space c = true)
    (last : ∀ c, w.getLast? = some c → space c = false) : (w ++ v).rdropWhile space = w := by
  have gone : v.reverse.dropWhile space = [] :=
    List.dropWhile_eq_nil_iff.mpr (fun c inside => back c (List.mem_reverse.mp inside))
  rw [List.rdropWhile,List.reverse_append,List.dropWhile_append,gone]
  change (w.reverse.dropWhile space).reverse = w
  cases turned : w.reverse with
  | nil => rw [List.reverse_eq_nil_iff.mp turned]; rfl
  | cons c rest =>
    have end_ : w.getLast? = some c := by rw [← List.head?_reverse,turned]; rfl
    rw [List.dropWhile_cons_of_neg (by simp [last c end_]),← turned,List.reverse_reverse]

theorem stripWith_solid {space : Char → Bool} {u w v : Text} (front : ∀ c ∈ u, space c = true)
    (back : ∀ c ∈ v, space c = true) (solid : Solid space w) : stripWith space space (u ++ w ++ v) = w := by
  rw [List.append_assoc,stripWith_pad space front]
  cases w with
  | nil =>
    have padded := stripWith_pad space back []
    rw [List.append_nil] at padded
    rw [List.nil_append,padded]
    rfl
  | cons c rest =>
    have head : space c = false := solid.1 c rfl
    rw [stripWith,List.cons_append,List.dropWhile_cons_of_neg (by simp [head]),← List.cons_append]
    exact rdropWhile_spaces back solid.2

theorem stripWith_self {space : Char → Bool} {w : Text} (solid : Solid space w) : stripWith space space w = w := by
  have plain := stripWith_solid (List.forall_mem_nil _) (List.forall_mem_nil _) solid
  rwa [List.nil_append,List.append_nil] at plain

theorem stripWith_idem (space : Char → Bool) (t : Text) :
    stripWith space space (stripWith space space t) = stripWith space space t :=
  stripWith_self (solid_stripWith space t)

/-- A character that is no space is kept, and only moves to the front. -/
theorem stripWith_get {space : Char → Bool} {t : Text} {i : Nat} {c : Char} (found : t[i]? = some c)
    (kept : space c = false) : ∃ k ≤ i, (stripWith space space t)[k]? = some c := by
  obtain ⟨u,v,parts,front,back⟩ := stripWith_parts space space t
  rw [parts] at found
  by_cases before : i < u.length
  · rw [List.append_assoc,List.getElem?_append_left before] at found
    have space := front c (List.mem_of_getElem? found)
    rw [kept] at space
    cases space
  · rw [List.append_assoc,List.getElem?_append_right (Nat.le_of_not_lt before)] at found
    by_cases inside : i - u.length < (stripWith space space t).length
    · rw [List.getElem?_append_left inside] at found
      exact ⟨i - u.length,Nat.sub_le _ _,found⟩
    · rw [List.getElem?_append_right (Nat.le_of_not_lt inside)] at found
      have space := back c (List.mem_of_getElem? found)
      rw [kept] at space
      cases space

theorem splitArgsFrom_stripped {strip : Text → Text} {depth : Int} {inStr : Bool} {cur s a : Text}
    (found : a ∈ splitArgsFrom strip depth inStr cur s) : ∃ t, a = strip t := by
  induction s generalizing depth inStr cur with
  | nil =>
    rw [splitArgsFrom] at found
    split at found
    · cases found
    · exact ⟨cur,List.mem_singleton.mp found⟩
  | cons c rest ih =>
    rw [splitArgsFrom_cons strip (depth,inStr)] at found
    split at found
    · rcases List.mem_cons.mp found with rfl | later
      · exact ⟨cur,rfl⟩
      · exact ih later
    · exact ih found

section Strips
variable {strip : Text → Text} (trims : Trims strip)
include trims

theorem strip_nil : strip [] = [] := List.infix_nil.mp (trims [])

theorem strip_length (t : Text) : (strip t).length ≤ t.length := (trims t).length_le

theorem mem_of_mem_strip {c : Char} {t : Text} (inside : c ∈ strip t) : c ∈ t := (trims t).subset inside

theorem splitArgsFrom_part {depth : Int} {inStr : Bool} {cur s a : Text} (found : a ∈ splitArgsFrom strip depth inStr cur s) :
    a.length ≤ cur.length + s.length ∧ ∀ c ∈ a, c ∈ cur ∨ c ∈ s := by
  induction s generalizing depth inStr cur with
  | nil =>
    rw [splitArgsFrom] at found
    split at found
    · cases found
    · obtain rfl := List.mem_singleton.mp found
      exact ⟨strip_length trims cur,fun c inside => Or.inl (mem_of_mem_strip trims inside)⟩
  | cons c rest ih =>
    rw [splitArgsFrom_cons strip (depth,inStr)] at found
    split at found
    · rcases List.mem_cons.mp found with rfl | later
      · refine ⟨Nat.le_trans (strip_length trims cur) (Nat.le_add_right _ _),fun d inside => Or.inl ?_⟩
        exact mem_of_mem_strip trims inside
      · obtain ⟨length,subset⟩ := ih later
        refine ⟨?_,fun d inside => ?_⟩
        · simp only [List.length_nil,List.length_cons] at length ⊢
          omega
        · rcases subset d inside with nothing | old
          · cases nothing
          · exact Or.inr (List.mem_cons_of_mem _ old)
    · obtain ⟨length,subset⟩ := ih found
      refine ⟨?_,fun d inside => ?_⟩
      · simp only [List.length_append,List.length_cons,List.length_nil] at length ⊢
        omega
      · rcases subset d inside with old | old
        · rcases List.mem_append.mp old with cur | here
          · exact Or.inl cur
          · exact Or.inr (List.mem_singleton.mp here ▸ List.mem_cons_self)
        · exact Or.inr (List.mem_cons_of_mem _ old)

/-- The name and the arguments of a call are taken from its text, and an argument
is shorter. -/
theorem parseCall_part {text name : Text} {args : List Text} (found : parseCall strip text = some (name,args)) :
    (∀ c ∈ name, c ∈ text) ∧ ∀ a ∈ args, a.length < text.length ∧ ∀ c ∈ a, c ∈ text := by
  obtain ⟨before,rest,start,_,split_,_,_,_,rfl,rfl⟩ := parseCall_eq_some.mp found
  have parts := splitName_eq_some split_
  have length := strip_length trims text
  have inText (c : Char) (inside : c ∈ before ++ '('::rest) : c ∈ text := by
    rw [← parts] at inside
    exact mem_of_mem_strip trims inside
  refine ⟨fun c inside => inText c (List.mem_append_left _ (mem_of_mem_strip trims inside)),?_⟩
  intro a inside
  obtain ⟨short,subset⟩ := splitArgsFrom_part trims inside
  refine ⟨?_,fun c member => inText c ?_⟩
  · rw [parts] at length
    simp only [List.length_append,List.length_cons,List.length_nil,List.length_dropLast] at short length
    omega
  · rcases subset c member with nothing | old
    · cases nothing
    · exact List.mem_append_right _ (List.mem_cons_of_mem _ ((List.dropLast_sublist _).subset old))

theorem termWithin_fuel {n m : Nat} {t : Text} (enough : t.length ≤ n) (enough' : t.length ≤ m) :
    termWithin strip n t = termWithin strip m t := by
  have empty (t : Text) (length : t.length ≤ 0) (k : Nat) : termWithin strip k t = [] := by
    obtain rfl := List.eq_nil_of_length_eq_zero (Nat.le_zero.mp length)
    cases k with
    | zero => exact strip_nil trims
    | succ k => simp [termWithin,parseCall,strip_nil trims]
  induction n generalizing m t with
  | zero => rw [empty t enough,empty t enough]
  | succ n ih =>
    cases m with
    | zero => rw [empty t enough',empty t enough']
    | succ m =>
      unfold termWithin
      dsimp only
      cases called : parseCall strip (strip t) with
      | none => rfl
      | some call =>
        obtain ⟨name,args⟩ := call
        have same : args.map (termWithin strip n) = args.map (termWithin strip m) := by
          apply List.map_congr_left
          intro a inside
          have short := ((parseCall_part trims called).2 a inside).1
          have length := strip_length trims t
          exact ih (by omega) (by omega)
        simp only [same]

theorem termToSexpr_eq (t : Text) :
    termToSexpr strip t =
      match parseCall strip (strip t) with
      | none => strip t
      | some (name,args) => '('::join [' '] (name::args.map (termToSexpr strip)) ++ [')'] := by
  unfold termToSexpr
  rw [termWithin_fuel trims (Nat.le_refl _) (Nat.le_succ _),termWithin]
  cases called : parseCall strip (strip t) with
  | none => rfl
  | some call =>
    obtain ⟨name,args⟩ := call
    have same : args.map (termWithin strip t.length) = args.map (fun a => termWithin strip a.length a) := by
      apply List.map_congr_left
      intro a inside
      have short := ((parseCall_part trims called).2 a inside).1
      have length := strip_length trims t
      exact termWithin_fuel trims (by omega) (Nat.le_refl _)
    simp only [same]

end Strips

/-! Two ways of stripping that agree on the texts over some characters. -/

section Congruence
variable {strip strip' : Text → Text} {good : Char → Prop} (trims : Trims strip)
  (same : ∀ t, (∀ c ∈ t, good c) → strip t = strip' t)
include same

theorem splitArgsFrom_congr {depth : Int} {inStr : Bool} {cur s : Text} (goodCur : ∀ c ∈ cur, good c)
    (goodS : ∀ c ∈ s, good c) : splitArgsFrom strip depth inStr cur s = splitArgsFrom strip' depth inStr cur s := by
  induction s generalizing depth inStr cur with
  | nil => rw [splitArgsFrom,splitArgsFrom,same cur goodCur]
  | cons c rest ih =>
    have goodRest : ∀ d ∈ rest, good d := fun d inside => goodS d (List.mem_cons_of_mem _ inside)
    have goodNext : ∀ d ∈ cur ++ [c], good d := by
      intro d inside
      rcases List.mem_append.mp inside with old | here
      · exact goodCur d old
      · exact List.mem_singleton.mp here ▸ goodS c List.mem_cons_self
    rw [splitArgsFrom_cons strip (depth,inStr),splitArgsFrom_cons strip' (depth,inStr),same cur goodCur,
      ih (List.forall_mem_nil _) goodRest,ih goodNext goodRest]

include trims

theorem parseCall_congr {text : Text} (goodText : ∀ c ∈ text, good c) : parseCall strip text = parseCall strip' text := by
  unfold parseCall
  dsimp only
  rw [← same text goodText]
  split
  · rfl
  · split
    · rfl
    · split
      · rfl
      · rename_i before rest split_
        have parts := splitName_eq_some split_
        have inText (c : Char) (inside : c ∈ before ++ '('::rest) : good c := by
          rw [← parts] at inside
          exact goodText c (mem_of_mem_strip trims inside)
        have name := same before (fun c inside => inText c (List.mem_append_left _ inside))
        have args : splitArgs strip rest.dropLast = splitArgs strip' rest.dropLast := by
          refine splitArgsFrom_congr same (List.forall_mem_nil _) (fun c inside => inText c ?_)
          exact List.mem_append_right _ (List.mem_cons_of_mem _ ((List.dropLast_sublist _).subset inside))
        rw [name,args]

theorem termToSexpr_congr (trims' : Trims strip') {text : Text} (goodText : ∀ c ∈ text, good c) :
    termToSexpr strip text = termToSexpr strip' text := by
  generalize length : text.length = n
  induction n using Nat.strong_induction_on generalizing text with
  | h n ih =>
    have goodStrip : ∀ c ∈ strip text, good c := fun c inside => goodText c (mem_of_mem_strip trims inside)
    rw [termToSexpr_eq trims,termToSexpr_eq trims',← same text goodText,← parseCall_congr trims same goodStrip]
    cases called : parseCall strip (strip text) with
    | none => rfl
    | some call =>
      obtain ⟨name,args⟩ := call
      have each : args.map (termToSexpr strip) = args.map (termToSexpr strip') := by
        apply List.map_congr_left
        intro a inside
        obtain ⟨short,subset⟩ := (parseCall_part trims called).2 a inside
        have trimmed := strip_length trims text
        exact ih a.length (by omega) (fun c member => goodStrip c (subset c member)) rfl
      simp only [each]

end Congruence

/-! Arguments that are joined and split again. -/

/-- Texts that a comma keeps apart: only the last may leave brackets or a string
open. -/
def Separate : List Text → Prop
  | [] => True
  | [a] => Avoids ',' outside a
  | a::b::rest => Avoids ',' outside a ∧ scan outside a = outside ∧ Separate (b::rest)

/-- The arguments without an empty last one. -/
def tidy : List Text → List Text
  | [] => []
  | [a] => if a = [] then [] else [a]
  | a::b::rest => a::tidy (b::rest)

section Resplit
variable {space : Char → Bool} (plain : ∀ c, space c = true → isSpecial c = false ∧ c ≠ ',')
include plain

theorem scan_stripWith (state : Int × Bool) (t : Text) : scan state (stripWith space space t) = scan state t := by
  obtain ⟨u,v,parts,front,back⟩ := stripWith_parts space space t
  conv_rhs => rw [parts]
  rw [scan_append,scan_append,scan_plain state (fun c inside => (plain c (front c inside)).1),
    scan_plain _ (fun c inside => (plain c (back c inside)).1)]

theorem avoids_stripWith {state : Int × Bool} {t : Text} (avoids : Avoids ',' state t) :
    Avoids ',' state (stripWith space space t) := by
  obtain ⟨u,v,parts,front,back⟩ := stripWith_parts space space t
  rw [parts,avoids_append,avoids_append,scan_plain state (fun c inside => (plain c (front c inside)).1)] at avoids
  exact avoids.1.2

theorem splitArgsFrom_separate {state : Int × Bool} {cur : Text} (avoids : Avoids ',' outside cur)
    (scanned : scan outside cur = state) (s : Text) :
    Separate (splitArgsFrom (stripWith space space) state.1 state.2 cur s) := by
  induction s generalizing state cur with
  | nil =>
    rw [splitArgsFrom]
    split
    · trivial
    · exact avoids_stripWith plain avoids
  | cons c rest ih =>
    rw [splitArgsFrom_cons]
    split
    · rename_i stop
      have later : Separate (splitArgsFrom (stripWith space space) outside.1 outside.2 [] rest) := ih trivial rfl
      change Separate (_::splitArgsFrom (stripWith space space) outside.1 outside.2 [] rest)
      have closed : scan outside (stripWith space space cur) = outside := by
        rw [scan_stripWith plain,scanned,stop.2]
      cases others : splitArgsFrom (stripWith space space) outside.1 outside.2 [] rest with
      | nil => exact avoids_stripWith plain avoids
      | cons b more =>
        rw [others] at later
        exact ⟨avoids_stripWith plain avoids,closed,later⟩
    · rename_i goes
      refine ih ?_ ?_
      · rw [avoids_append]
        refine ⟨avoids,fun comma now => goes ⟨comma,?_⟩,trivial⟩
        rw [← scanned]
        exact now
      · rw [scan_append,scanned]
        rfl

theorem parseCall_separate {text name : Text} {args : List Text}
    (found : parseCall (stripWith space space) text = some (name,args)) :
    Separate args ∧ ∀ a ∈ args, stripWith space space a = a := by
  obtain ⟨before,rest,start,_,_,_,_,_,_,rfl⟩ := parseCall_eq_some.mp found
  have separate : Separate (splitArgsFrom (stripWith space space) outside.1 outside.2 [] rest.dropLast) :=
    splitArgsFrom_separate plain (show Avoids ',' outside [] from trivial) rfl _
  refine ⟨separate,fun a inside => ?_⟩
  obtain ⟨t,rfl⟩ := splitArgsFrom_stripped inside
  exact stripWith_idem space t

theorem splitArgsFrom_join {pad : Text} (spaces : ∀ c ∈ pad, space c = true) {args : List Text} (separate : Separate args)
    (stripped : ∀ a ∈ args, stripWith space space a = a) {cur : Text} (spacesCur : ∀ c ∈ cur, space c = true) :
    splitArgsFrom (stripWith space space) 0 false cur (join (','::pad) args) = tidy args := by
  induction args generalizing cur with
  | nil =>
    have nothing : stripWith space space cur = [] := by
      have padded := stripWith_pad space spacesCur []
      rw [List.append_nil] at padded
      rw [padded]
      rfl
    simp [join,splitArgsFrom,tidy,nothing]
  | cons a rest ih =>
    have own : stripWith space space (cur ++ a) = a := by
      rw [stripWith_pad space spacesCur]
      exact stripped a List.mem_cons_self
    cases rest with
    | nil =>
      have whole := splitArgsFrom_append (stripWith space space) cur separate []
      rw [List.append_nil] at whole
      rw [join,tidy]
      refine whole.trans ?_
      rw [splitArgsFrom,own]
    | cons b more =>
      obtain ⟨avoids,closed,later⟩ := separate
      have padAvoids : Avoids ',' outside pad :=
        avoids_of_not_mem outside (fun inside => (plain _ (spaces _ inside)).2 rfl)
      have padded := splitArgsFrom_append (stripWith space space) [] padAvoids (join (','::pad) (b::more))
      rw [scan_plain outside (fun c inside => (plain c (spaces c inside)).1)] at padded
      have first := splitArgsFrom_append (stripWith space space) cur avoids (','::(pad ++ join (','::pad) (b::more)))
      rw [closed,splitArgsFrom_cons,if_pos ⟨rfl,rfl⟩,own] at first
      rw [join,tidy,List.append_assoc]
      refine first.trans ?_
      rw [← ih later (fun d inside => stripped d (List.mem_cons_of_mem _ inside)) spaces]
      exact congrArg (List.cons a) padded

end Resplit

end WarpLoop.Shrubbery
