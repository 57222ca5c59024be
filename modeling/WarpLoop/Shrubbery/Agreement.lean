import WarpLoop.Shrubbery.Reader
import WarpLoop.Shrubbery.S7Reader
import WarpLoop.Shrubbery.ScanSpecs
import WarpLoop.Lib.Following

/-! The two readers on printable text. They see the same lines and the same block
tree; they part where a binding's first colon stands inside brackets or a string, and
at a clause with nothing behind its colon. -/
namespace WarpLoop.Shrubbery
open Lib.Outcome Lib.Following

def Plain (c : Char) : Prop := 32 ≤ c.toNat ∧ c.toNat ≤ 126

/-- Text of printable ASCII characters and newlines. -/
def Printable (text : Text) : Prop := ∀ c ∈ text, c = '\n' ∨ Plain c

theorem isSpace_plain {c : Char} (plain : Plain c) : Python.isSpace c = decide (c = ' ') := by
  obtain ⟨low,high⟩ := plain
  unfold Python.isSpace
  by_cases space : c = ' '
  · subst c
    decide
  · have code : c.toNat ≠ 32 := fun same => space (Char.toNat_inj.mp same)
    rw [decide_eq_false space]
    simp only [List.contains_eq_mem,decide_eq_false_iff_not]
    simp only [List.mem_cons,List.not_mem_nil,or_false]
    omega

theorem dropWhile_congr {p q : Char → Bool} {t : Text} (same : ∀ c ∈ t, p c = q c) : t.dropWhile p = t.dropWhile q := by
  induction t with
  | nil => rfl
  | cons c rest ih =>
    rw [List.dropWhile_cons,List.dropWhile_cons,same c List.mem_cons_self,
      ih (fun d inside => same d (List.mem_cons_of_mem _ inside))]

theorem rdropWhile_congr {p q : Char → Bool} {t : Text} (same : ∀ c ∈ t, p c = q c) :
    t.rdropWhile p = t.rdropWhile q := by
  unfold List.rdropWhile
  rw [dropWhile_congr (fun c inside => same c (List.mem_reverse.mp inside))]

theorem drop_leadingSpaceCount (t : Text) : t.drop (S7.leadingSpaceCount t) = t.dropWhile (· = ' ') := by
  have parts := List.takeWhile_append_dropWhile (p := (· = ' ')) (l := t)
  have dropped := congrArg (List.drop (S7.leadingSpaceCount t)) parts
  rw [← dropped]
  exact List.drop_left

theorem rstrip_eq {t : Text} (plain : ∀ c ∈ t, Plain c) : Python.rstrip t = S7.rstrip t := by
  refine rdropWhile_congr (fun c inside => ?_)
  rw [isSpace_plain (plain c inside)]
  have noTab : c ≠ '\t' := by
    rintro rfl
    exact absurd (plain _ inside).1 (by decide)
  simp [noTab]

theorem strip_eq (t : Text) (plain : ∀ c ∈ t, Plain c) : Python.strip t = S7.strip t := by
  have front : t.dropWhile Python.isSpace = t.dropWhile (· = ' ') :=
    dropWhile_congr (fun c inside => isSpace_plain (plain c inside))
  rw [Python.strip,stripWith,S7.strip,drop_leadingSpaceCount,front]
  exact rstrip_eq (fun c inside => plain c ((List.dropWhile_sublist _).subset inside))

theorem strip_idem (t : Text) : Python.strip (Python.strip t) = Python.strip t := stripWith_idem _ t

theorem trims_python : Trims Python.strip := trims_stripWith _ _

theorem trims_s7 : Trims S7.strip := by
  intro t
  rw [S7.strip,drop_leadingSpaceCount]
  exact trims_stripWith _ _ t

theorem stripComment_eq (inStr : Bool) (t : Text) : Python.stripComment inStr t = S7.stripComment inStr t := by
  induction t generalizing inStr with
  | nil => rfl
  | cons c rest ih =>
    rw [Python.stripComment,S7.stripComment,ih,ih]
    cases inStr <;> simp

theorem stripComment_sublist (inStr : Bool) (t : Text) : (S7.stripComment inStr t).Sublist t := by
  induction t generalizing inStr with
  | nil => exact List.Sublist.refl _
  | cons c rest ih =>
    rw [S7.stripComment]
    split
    · exact (ih _).cons_cons c
    · split
      · exact (ih _).cons_cons c
      · split
        · exact List.nil_sublist _
        · exact (ih _).cons_cons c

theorem splitLines_eq (text : Text) :
    Python.splitLines text = S7.splitLines text ∨ Python.splitLines text = S7.splitLines text ++ [[]] := by
  induction text with
  | nil => exact Or.inr rfl
  | cons c rest ih =>
    rw [Python.splitLines,S7.splitLines]
    split
    · rcases ih with same | more
      · rw [same]
        exact Or.inl rfl
      · rw [more]
        exact Or.inr rfl
    · rcases ih with same | more
      · rw [same]
        exact Or.inl rfl
      · rw [more]
        cases S7.splitLines rest with
        | nil => exact Or.inl rfl
        | cons first others => exact Or.inr rfl

theorem splitLines_plain {text : Text} (printable : Printable text) {line : Text} (inside : line ∈ S7.splitLines text) :
    ∀ c ∈ line, Plain c := by
  induction text generalizing line with
  | nil => cases inside
  | cons c rest ih =>
    have later := @ih (fun d member => printable d (List.mem_cons_of_mem _ member))
    rw [S7.splitLines] at inside
    split at inside
    · rcases List.mem_cons.mp inside with rfl | old
      · exact List.forall_mem_nil _
      · exact later old
    · rename_i other
      have own : Plain c := (printable c List.mem_cons_self).resolve_left other
      split at inside
      · obtain rfl := List.mem_singleton.mp inside
        exact fun d member => List.mem_singleton.mp member ▸ own
      · rename_i first others split_
        rcases List.mem_cons.mp inside with rfl | old
        · intro d member
          rcases List.mem_cons.mp member with rfl | inFirst
          · exact own
          · exact later (by rw [split_]; exact List.mem_cons_self) d inFirst
        · exact later (by rw [split_]; exact List.mem_cons_of_mem _ old)

theorem indentOf_eq (line : Text) : Python.indentOf line = S7.leadingSpaceCount line := by
  have parts := congrArg List.length (List.takeWhile_append_dropWhile (p := (· = ' ')) (l := line))
  rw [List.length_append] at parts
  unfold Python.indentOf S7.leadingSpaceCount
  omega

theorem parseLines_eq {lines : List Text} (plain : ∀ line ∈ lines, ∀ c ∈ line, Plain c) :
    Python.parseLines lines = .ok (S7.parseShrubLines lines) := by
  induction lines with
  | nil => rfl
  | cons raw rest ih =>
    have later := ih (fun line inside => plain line (List.mem_cons_of_mem _ inside))
    have clean : ∀ c ∈ S7.stripComment false raw, Plain c :=
      fun c inside => plain raw List.mem_cons_self c ((stripComment_sublist false raw).subset inside)
    have line : Python.rstrip (Python.stripComment false raw) = S7.rstrip (S7.stripComment false raw) := by
      rw [stripComment_eq,rstrip_eq clean]
    have cleanLine : ∀ c ∈ S7.rstrip (S7.stripComment false raw), Plain c :=
      fun c inside => clean c ((List.rdropWhile_prefix _ _).subset inside)
    rw [Python.parseLines,S7.parseShrubLines,line,strip_eq _ cleanLine,later,indentOf_eq]
    split
    · rfl
    · have noTab (n : Nat) : '\t' ∉ (S7.rstrip (S7.stripComment false raw)).take n := by
        intro inside
        exact absurd (cleanLine _ (List.mem_of_mem_take inside)).1 (by decide)
      rw [if_neg (noTab _)]
      rfl

/-! Bindings. -/

/-- The first colon of a binding stands outside brackets and strings. -/
def BindingPortable (part : Text) : Prop := scan outside (part.takeWhile (· ≠ ':')) = outside

def bindingText (b : Text × Text) : Text := '('::b.1 ++ ' '::b.2 ++ [')']

theorem termToSexpr_start (t : Text) :
    termToSexpr Python.strip t = Python.strip t ∨ ∃ rest, termToSexpr Python.strip t = '('::rest := by
  rw [termToSexpr_eq trims_python]
  split
  · exact Or.inl rfl
  · exact Or.inr ⟨_,rfl⟩

theorem isSpace_special {c : Char} (special : isSpecial c = true) : Python.isSpace c = false := by
  simp only [isSpecial,isOpen,isClose,Bool.or_eq_true,decide_eq_true_eq] at special
  rcases special with (rfl | rfl | rfl) | rfl | rfl <;> decide

theorem space_plain (c : Char) (space : Python.isSpace c = true) : isSpecial c = false ∧ c ≠ ',' := by
  constructor
  · cases special : isSpecial c with
    | false => rfl
    | true => exact absurd (isSpace_special special) (by rw [space]; decide)
  · rintro rfl
    exact absurd space (by decide)

theorem space_isSpace : ∀ c ∈ [' '], Python.isSpace c = true := List.all_eq_true.mp (by decide)

theorem differ_of_special {x y z : Text} {i : Nat} {c : Char} (found : x[i]? = some c) (special : isSpecial c = true)
    (inside : i < y.length) (plain : ∀ d ∈ y, isSpecial d = false) : Differ x (y ++ z) := by
  refine ⟨i,c,y[i],found,by rw [List.getElem?_append_left inside,List.getElem?_eq_getElem inside],?_⟩
  rintro rfl
  have other := plain _ (List.getElem_mem inside)
  rw [special] at other
  cases other

theorem first_special {state state' : Int × Bool} {t : Text} (scanned : scan state t = state') (moved : state ≠ state') :
    ∃ before c after, t = before ++ c::after ∧ isSpecial c = true ∧ ∀ d ∈ before, isSpecial d = false := by
  induction t generalizing state with
  | nil => exact absurd scanned moved
  | cons d rest ih =>
    cases special : isSpecial d with
    | true => exact ⟨[],d,rest,rfl,special,List.forall_mem_nil _⟩
    | false =>
      have later : scan state rest = state' := by
        rw [← scanned,scan,scan,List.foldl_cons,scanStep_plain state special]
      obtain ⟨before,c,after,rfl,found,plain⟩ := ih later moved
      refine ⟨d::before,c,after,rfl,found,fun e inside => ?_⟩
      rcases List.mem_cons.mp inside with rfl | old
      · exact special
      · exact plain e old

theorem solid_cons_rdropWhile {c : Char} (nonspace : Python.isSpace c = false) (t : Text) (d : Char)
    (last : (c::t.rdropWhile Python.isSpace).getLast? = some d) : Python.isSpace d = false := by
  by_cases empty : t.rdropWhile Python.isSpace = []
  · rw [empty] at last
    exact Option.some.inj last ▸ nonspace
  · have kept := List.rdropWhile_last_not Python.isSpace t empty
    rw [List.getLast?_cons,List.getLast?_eq_getLast_of_ne_nil empty] at last
    simpa [← Option.some.inj last] using kept

/-- The texts of a binding that is split at its first colon, inside brackets, and at
a later one outside of them. -/
theorem binding_differ {before mid after : Text} (opened : scan outside before ≠ outside)
    (closed : scan outside (before ++ ':'::mid) = outside) (value : Text) :
    Differ (bindingText (Python.strip before,termToSexpr Python.strip (Python.strip (mid ++ ':'::after))))
      (bindingText (Python.strip (before ++ ':'::mid),value)) := by
  obtain ⟨u,v,parts,front,back⟩ := stripWith_parts Python.isSpace Python.isSpace before
  change before = u ++ Python.strip before ++ v at parts
  have spaces {t : Text} (all : ∀ c ∈ t, Python.isSpace c = true) (c : Char) (inside : c ∈ t) : isSpecial c = false :=
    (space_plain c (all c inside)).1
  have solid := solid_stripWith Python.isSpace before
  change Solid Python.isSpace (Python.strip before) at solid
  have nonempty : Python.strip before ≠ [] := by
    intro empty
    rw [empty,List.append_nil] at parts
    rw [parts,scan_append,scan_plain _ (spaces front),scan_plain _ (spaces back)] at opened
    exact opened rfl
  -- the rest of the name brings the scan back, so it has a special character
  have middle : scan (scan outside before) mid = outside := by
    rw [scan_append,scan,List.foldl_cons,scanStep_plain _ (by decide)] at closed
    exact closed
  obtain ⟨m,c,m',rfl,special,plain⟩ := first_special middle opened
  have nonspace := isSpace_special special
  -- what stripping leaves of the longer name
  let tail := m'.rdropWhile Python.isSpace
  let w := Python.strip before ++ (v ++ ':'::(m ++ c::tail))
  have name : Python.strip (before ++ ':'::(m ++ c::m')) = w := by
    have whole : before ++ ':'::(m ++ c::m') = u ++ w ++ m'.rtakeWhile Python.isSpace := by
      have rest : m' = tail ++ m'.rtakeWhile Python.isSpace := (List.rdropWhile_append_rtakeWhile ..).symm
      conv_lhs => rw [parts,rest]
      simp [w]
    rw [whole]
    refine stripWith_solid front (fun d inside => List.mem_rtakeWhile_imp inside) ⟨fun d first => ?_,fun d last => ?_⟩
    · refine solid.1 d ?_
      rw [List.head?_append_of_ne_nil _ nonempty] at first
      exact first
    · have end_ : (c::tail).getLast? = some d := by
        rw [← last]
        simp [w,List.getLast?_append,List.getLast?_cons]
      exact solid_cons_rdropWhile nonspace m' d end_
  have stretch : ∀ d ∈ v ++ ':'::m, isSpecial d = false := by
    intro d inside
    rcases List.mem_append.mp inside with space | later
    · exact spaces back d space
    · rcases List.mem_cons.mp later with rfl | old
      · decide
      · exact plain d old
  have faced (i : Nat) (e : Char) (t : Text) (found : (' '::t)[i]? = some e) (marks : isSpecial e = true)
      (short : i < (v ++ ':'::m).length) : Differ (' '::t ++ [')']) (v ++ ':'::(m ++ c::tail) ++ ' '::value ++ [')']) := by
    have apart := (differ_of_special (z := c::tail) found marks short stretch).append_right [')'] (' '::value ++ [')'])
    simpa using apart
  have differ : Differ (' '::termToSexpr Python.strip (Python.strip (m ++ c::m' ++ ':'::after)) ++ [')'])
      (v ++ ':'::(m ++ c::tail) ++ ' '::value ++ [')']) := by
    cases v with
    | nil => exact ⟨0,' ',':',rfl,rfl,by decide⟩
    | cons s v' =>
      rcases termToSexpr_start (Python.strip (m ++ c::m' ++ ':'::after)) with same | ⟨rest,call⟩
      · obtain ⟨k,bound,kept⟩ : ∃ k ≤ m.length, (Python.strip (m ++ c::m' ++ ':'::after))[k]? = some c :=
          stripWith_get (by simp) nonspace
        rw [same,strip_idem]
        refine faced (k + 1) c _ kept special ?_
        simp only [List.length_append,List.length_cons]
        omega
      · rw [call]
        refine faced 1 '(' _ rfl rfl ?_
        simp only [List.length_append,List.length_cons]
        omega
  rw [name]
  have grown := (differ.append_left (Python.strip before)).cons '('
  simpa [bindingText,w] using grown

theorem splitFirst_cases {part before after before' after' : Text} (split : part = before ++ ':'::after)
    (first : ':' ∉ before) (split' : part = before' ++ ':'::after') :
    (before' = before ∧ after' = after) ∨ ∃ mid, before' = before ++ ':'::mid ∧ after = mid ++ ':'::after' := by
  rw [split] at split'
  rcases List.append_eq_append_iff.mp split' with ⟨more,longer,rest⟩ | ⟨more,shorter,rest⟩
  · cases more with
    | nil => exact Or.inl ⟨by simpa using longer,by simpa using rest.symm⟩
    | cons c mid =>
      obtain ⟨rfl,rfl⟩ := List.cons.inj rest
      exact Or.inr ⟨mid,longer,rfl⟩
  · cases more with
    | nil => exact Or.inl ⟨by simpa using shorter.symm,by simpa using rest⟩
    | cons c mid =>
      obtain ⟨rfl,_⟩ := List.cons.inj rest
      exact absurd (shorter ▸ List.mem_append_right _ List.mem_cons_self) first

theorem takeWhile_first {before after : Text} (first : ':' ∉ before) :
    (before ++ ':'::after).takeWhile (· ≠ ':') = before := by
  have others : ∀ c ∈ before, decide (c ≠ ':') = true := fun c inside => decide_eq_true (ne_of_mem_of_not_mem inside first)
  rw [List.takeWhile_append_of_pos others]
  simp

theorem dropWhile_first {before after : Text} (first : ':' ∉ before) :
    (before ++ ':'::after).dropWhile (· ≠ ':') = ':'::after := by
  have others : ∀ c ∈ before, decide (c ≠ ':') = true := fun c inside => decide_eq_true (ne_of_mem_of_not_mem inside first)
  rw [List.dropWhile_append_of_pos others]
  simp

theorem parseBinding_follows {part : Text} (plain : ∀ c ∈ part, Plain c) :
    Follows (BindingPortable part) (fun b b' => Differ (bindingText b) (bindingText b')) (Python.parseBinding part)
      (S7.parseBinding part) := by
  unfold Python.parseBinding S7.parseBinding
  by_cases colon : ':' ∈ part
  · rw [if_neg (not_not_intro colon)]
    obtain ⟨before,after,split,first⟩ := List.eq_append_cons_of_mem colon
    have front : part.takeWhile (· ≠ ':') = before := by rw [split,takeWhile_first first]
    have back : (part.dropWhile (· ≠ ':')).tail = after := by rw [split,dropWhile_first first,List.tail_cons]
    have alone : BindingPortable part ↔ scan outside before = outside := by rw [BindingPortable,front]
    rw [front,back]
    refine ⟨fun e failed => (by cases failed),?_,?_⟩
    · rintro b done portable
      obtain rfl := Except.ok.inj done
      have found : splitFirstColonAtDepth0 part = some (before,after) :=
        splitFirstColon_eq_some.mpr ⟨split,avoids_of_not_mem _ first,alone.mp portable⟩
      have name := strip_eq before (fun c inside => plain c (split ▸ List.mem_append_left _ inside))
      have rest : ∀ c ∈ after, Plain c :=
        fun c inside => plain c (split ▸ List.mem_append_right _ (List.mem_cons_of_mem _ inside))
      have value : termToSexpr Python.strip (Python.strip after) = termToSexpr S7.strip (S7.strip after) := by
        rw [← strip_eq after rest]
        exact termToSexpr_congr trims_python strip_eq trims_s7 (fun c inside => rest c (mem_of_mem_strip trims_python inside))
      rw [found,name,value]
      rfl
    · rintro b b' done fails done'
      obtain rfl := Except.ok.inj done
      split at done'
      · cases done'
      · rename_i before' after' found
        obtain rfl := Except.ok.inj done'
        obtain ⟨split',_,closed⟩ := splitFirstColon_eq_some.mp found
        rw [← strip_eq before' (fun c inside => plain c (split' ▸ List.mem_append_left _ inside))]
        rcases splitFirst_cases split first split' with ⟨rfl,rfl⟩ | ⟨mid,rfl,rfl⟩
        · exact absurd (alone.mpr closed) fails
        · exact binding_differ (fun same => fails (alone.mpr same)) closed _
  · rw [if_pos colon]
    cases found : splitFirstColonAtDepth0 part with
    | none => exact Follows.throw _ _ _ _
    | some parts =>
      have split := splitFirstColon_eq_some.mp found
      refine absurd ?_ colon
      rw [split.1]
      exact List.mem_append_right _ List.mem_cons_self

theorem differ_join (sep : Text) {texts texts' : List Text} (first : FirstDiffer Differ texts texts') :
    Differ (join sep texts) (join sep texts') := by
  have joined (t : Text) (rest : List Text) : ∃ more, join sep (t::rest) = t ++ more := by
    cases rest with
    | nil => exact ⟨[],by simp [join]⟩
    | cons u rest => exact ⟨sep ++ join sep (u::rest),by simp [join]⟩
  induction first with
  | @here t t' rest rest' differ =>
    obtain ⟨more,eq⟩ := joined t rest
    obtain ⟨more',eq'⟩ := joined t' rest'
    rw [eq,eq']
    exact differ.append_right _ _
  | @later t rest rest' first ih =>
    cases rest with
    | nil => cases first
    | cons u rest =>
      cases rest' with
      | nil => cases first
      | cons u' rest' => exact ih.append_left (t ++ sep)

theorem mem_join {c : Char} {sep : Text} {texts : List Text} (inside : c ∈ join sep texts) :
    c ∈ sep ∨ ∃ t ∈ texts, c ∈ t := by
  induction texts using join.induct with
  | case1 => cases inside
  | case2 t => exact Or.inr ⟨t,List.mem_cons_self,inside⟩
  | case3 t u rest ih =>
    rcases List.mem_append.mp inside with here | later
    · rcases List.mem_append.mp here with own | pad
      · exact Or.inr ⟨t,List.mem_cons_self,own⟩
      · exact Or.inl pad
    · rcases ih later with pad | ⟨v,member,within⟩
      · exact Or.inl pad
      · exact Or.inr ⟨v,List.mem_cons_of_mem _ member,within⟩

theorem mem_tidy {a : Text} {args : List Text} (inside : a ∈ tidy args) : a ∈ args := by
  induction args using tidy.induct with
  | case1 => exact inside
  | case2 => cases inside
  | case3 b nonempty =>
    rw [tidy,if_neg nonempty] at inside
    exact inside
  | case4 b c rest ih =>
    rcases List.mem_cons.mp inside with rfl | later
    · exact List.mem_cons_self
    · exact List.mem_cons_of_mem _ (ih later)

def BindingsPortable (args : List Text) : Prop := ∀ part ∈ tidy args, BindingPortable part

theorem splitArgs_join {text name : Text} {args : List Text} (found : parseCall Python.strip text = some (name,args))
    {pad : Text} (spaces : ∀ c ∈ pad, Python.isSpace c = true) :
    splitArgs Python.strip (join (','::pad) args) = tidy args := by
  obtain ⟨separate,stripped⟩ := parseCall_separate space_plain found
  exact splitArgsFrom_join space_plain spaces separate stripped (List.forall_mem_nil _)

theorem pythonBindingSexpr_eq {text name : Text} {args : List Text}
    (found : parseCall Python.strip text = some (name,args)) :
    Python.bindingSexpr args = (do
      let bindings ← (tidy args).mapM Python.parseBinding
      pure ('('::join [' '] (bindings.map bindingText) ++ [')'])) := by
  have tidied := splitArgs_join found (List.forall_mem_nil _)
  by_cases empty : args = []
  · subst empty
    rfl
  · unfold Python.bindingSexpr Python.parseBindingList
    rw [if_neg empty,tidied]
    rfl

theorem s7BindingSexpr_eq {text name : Text} {args : List Text} (plain : ∀ c ∈ text, Plain c)
    (found : parseCall Python.strip text = some (name,args)) :
    S7.bindingSexpr args = (do
      let bindings ← (tidy args).mapM S7.parseBinding
      pure ('('::join [' '] (bindings.map bindingText) ++ [')'])) := by
  have joinedPlain : ∀ c ∈ join ", ".toList args, Plain c := by
    intro c inside
    rcases mem_join inside with pad | ⟨a,member,within⟩
    · have known : c = ',' ∨ c = ' ' := by simpa using pad
      rcases known with rfl | rfl <;> exact ⟨by decide,by decide⟩
    · exact plain c (((parseCall_part trims_python found).2 a member).2 c within)
  have tidied : splitArgs S7.strip (join ", ".toList args) = tidy args := by
    rw [← splitArgs_join found space_isSpace]
    exact (splitArgsFrom_congr strip_eq (List.forall_mem_nil _) joinedPlain).symm
  by_cases empty : args = []
  · subst empty
    rfl
  · unfold S7.bindingSexpr S7.parseBindingList
    rw [if_neg empty,tidied]
    rfl

theorem bindingSexpr_follows {text name : Text} {args : List Text} (plain : ∀ c ∈ text, Plain c)
    (found : parseCall Python.strip text = some (name,args)) :
    Follows (BindingsPortable args) Differ (Python.bindingSexpr args) (S7.bindingSexpr args) := by
  rw [pythonBindingSexpr_eq found,s7BindingSexpr_eq plain found]
  refine Follows.map (Follows.mapM (tidy args) (fun part inside => parseBinding_follows (fun c member => ?_))) _ ?_
  · exact plain c (((parseCall_part trims_python found).2 part (mem_tidy inside)).2 c member)
  · intro bindings bindings' first
    have texts : FirstDiffer Differ (bindings.map bindingText) (bindings'.map bindingText) := by
      induction first with
      | here rest rest' differ => exact .here _ _ differ
      | later b _ ih => exact .later _ ih
    exact ((differ_join [' '] texts).cons '(').append_right _ _

end WarpLoop.Shrubbery
