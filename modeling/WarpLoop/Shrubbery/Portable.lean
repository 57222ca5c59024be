import WarpLoop.Shrubbery.Agreement

/-! Whole texts in the two readers. The texts that Python reads and the texts that s7
reads alike are described on the block tree, and the readers agree exactly on the texts
that are portable or not read at all. -/
namespace WarpLoop.Shrubbery
open Lib.Outcome Lib.Following

/-- A condition on an indented block for each way of reading it. -/
structure Conditions where
  body : Prop
  clauses : Prop

/-! What carries over from Python to s7. -/

def CallPortable (text : Text) : Prop := ∀ call ∈ parseCall Python.strip text, BindingsPortable call.2

def HeaderPortable (header : Text) (child : Conditions) : Prop :=
  if "define ".toList.isPrefixOf header then child.body
  else if "let ".toList.isPrefixOf header then CallPortable (Python.strip (header.drop 4)) ∧ child.body
  else if "let(".toList.isPrefixOf header ∨ "let*(".toList.isPrefixOf header then CallPortable header ∧ child.body
  else child.clauses

/-- s7 looks at the last character of a line, so there has to be one. -/
def LinePortable (header : Text) (child : Conditions) : Prop :=
  if header.getLast? = some ':' then HeaderPortable (Python.strip header.dropLast) child else header ≠ []

def ClausePortable (line : Text) (child : Conditions) : Prop :=
  ∀ split ∈ splitFirstColonAtDepth0 (Python.strip line.tail), LinePortable (Python.strip split.2) child

def portable : Forest → Conditions
  | .nil => ⟨True,True⟩
  | .leaf header rest =>
    ⟨LinePortable header ⟨True,True⟩ ∧ (portable rest).body,ClausePortable header ⟨True,True⟩ ∧ (portable rest).clauses⟩
  | .node header child rest =>
    ⟨LinePortable header (portable child) ∧ (portable rest).body,
      ClausePortable header (portable child) ∧ (portable rest).clauses⟩

structure Alike (conditions : Conditions) (python : Python.Readings) (s7 : S7.Readings) : Prop where
  body : Follows conditions.body (FirstDiffer Differ) python.body s7.body
  clauses : Follows conditions.clauses (FirstDiffer Differ) python.clauses s7.clauses

/-- Both readers see an indented block, or neither does. -/
inductive AlikeChild (conditions : Conditions) : Option Python.Readings → Option S7.Readings → Prop
  | none : AlikeChild conditions none none
  | some {python : Python.Readings} {s7 : S7.Readings} : Alike conditions python s7 →
      AlikeChild conditions (some python) (some s7)

/-- A `let` without bindings is none of the other blocks. -/
theorem bare_let {header : Text} (bare : header = "let".toList ∨ header = "let*".toList) :
    ¬ ("let(".toList.isPrefixOf header = true ∨ "let*(".toList.isPrefixOf header = true) ∧ header ≠ "cond".toList := by
  rcases bare with rfl | rfl <;> decide

section Following
variable {header : Text} (plain : ∀ c ∈ header, Plain c) {conditions : Conditions} {child : Option Python.Readings}
  {child' : Option S7.Readings} (alike : AlikeChild conditions child child')
include plain

theorem parseCall_eq : parseCall S7.strip header = parseCall Python.strip header :=
  (parseCall_congr trims_python strip_eq plain).symm

theorem strip_plain : ∀ c ∈ Python.strip header, Plain c :=
  fun c inside => plain c (mem_of_mem_strip trims_python inside)

theorem let_follows {name : Text} {args : List Text} (found : parseCall Python.strip header = some (name,args)) {python : Python.Readings} {s7 : S7.Readings}
    (both : Alike conditions python s7) (opening : Text) :
    Follows (BindingsPortable args ∧ conditions.body) Differ
      (Python.bindingSexpr args >>= fun bindings => python.body >>= fun body =>
        pure (opening ++ ' '::bindings ++ ' '::join [' '] body ++ [')']))
      (S7.bindingSexpr args >>= fun bindings => s7.body >>= fun body =>
        pure (opening ++ ' '::bindings ++ ' '::join [' '] body ++ [')'])) := by
  refine Follows.map2 (bindingSexpr_follows plain found) both.body _ ?_ ?_
  · intro bindings bindings' body body' differ
    have grown := (differ.cons ' ').append_left opening
    exact ((grown.append_right (' '::join [' '] body) (' '::join [' '] body')).append_right _ _)
  · intro bindings body body' first
    have grown := ((differ_join [' '] first).cons ' ').append_left (opening ++ ' '::bindings)
    exact grown.append_right _ _

include alike

theorem blockHeader_follows :
    Follows (HeaderPortable header conditions) Differ (Python.blockHeaderToSexpr header child)
      (S7.blockHeaderToSexpr header child') := by
  cases alike with
  | none => exact Follows.throw _ _ _ _
  | @some python s7 both =>
    have dropped (n : Nat) : ∀ c ∈ header.drop n, Plain c := fun c inside => plain c (List.mem_of_mem_drop inside)
    unfold Python.blockHeaderToSexpr S7.blockHeaderToSexpr HeaderPortable
    dsimp only
    by_cases isDefine : "define ".toList.isPrefixOf header = true
    · simp only [if_pos isDefine,parseCall_eq (dropped 7)]
      cases parseCall Python.strip (header.drop 7) with
      | none => exact Follows.throw _ _ _ _
      | some call =>
        refine Follows.map both.body _ (fun body body' first => ?_)
        exact ((differ_join [' '] first).append_left _).append_right _ _
    · simp only [if_neg isDefine]
      by_cases isNamed : "let ".toList.isPrefixOf header = true
      · simp only [if_pos isNamed,CallPortable,← strip_eq _ (dropped 4),parseCall_eq (strip_plain (dropped 4))]
        cases found : parseCall Python.strip (Python.strip (header.drop 4)) with
        | none => exact Follows.throw _ _ _ _
        | some call =>
          refine Follows.of_iff (let_follows (strip_plain (dropped 4)) found both ("(let ".toList ++ call.1)) ?_
          simp
      · simp only [if_neg isNamed]
        by_cases bare : header = "let".toList ∨ header = "let*".toList
        · -- s7 has no case of its own for a `let` without bindings, and finds no block either
          obtain ⟨noList,noCond⟩ := bare_let bare
          simp only [if_pos bare,if_neg noList,if_neg noCond]
          exact Follows.throw _ _ _ _
        · simp only [if_neg bare]
          by_cases isLet : "let(".toList.isPrefixOf header = true ∨ "let*(".toList.isPrefixOf header = true
          · simp only [if_pos isLet,CallPortable,parseCall_eq plain]
            cases found : parseCall Python.strip header with
            | none => exact Follows.throw _ _ _ _
            | some call =>
              refine Follows.of_iff (let_follows plain found both ('('::_)) ?_
              simp
          · simp only [if_neg isLet]
            by_cases isCond : header = "cond".toList
            · simp only [if_pos isCond]
              refine Follows.map both.clauses _ (fun clauses clauses' first => ?_)
              exact ((differ_join [' '] first).append_left _).append_right _ _
            · simp only [if_neg isCond]
              exact Follows.throw _ _ _ _

theorem line_follows :
    Follows (LinePortable header conditions) Differ (Python.lineToSexpr header child) (S7.lineToSexpr header child') := by
  unfold Python.lineToSexpr S7.lineToSexpr LinePortable
  have isSome : child'.isSome = child.isSome := by cases alike <;> rfl
  cases last : header.getLast? with
  | none =>
    obtain rfl := List.getLast?_eq_none_iff.mp last
    rw [if_neg (by simp),if_neg (by simp)]
    cases alike with
    | some => exact Follows.throw _ _ _ _
    | none =>
      refine ⟨fun e failed => (by cases failed),fun _ _ nonempty => absurd rfl nonempty,?_⟩
      intro _ _ _ _ done
      cases done
  | some c =>
    simp only [Option.some.injEq]
    by_cases colon : c = ':'
    · simp only [if_pos colon]
      have inner : ∀ d ∈ header.dropLast, Plain d := fun d inside => plain d ((List.dropLast_sublist _).subset inside)
      rw [← strip_eq _ inner]
      exact blockHeader_follows (strip_plain inner) alike
    · simp only [if_neg colon,isSome]
      have keyword : S7.looksLikeBlockKeyword header = true ↔
          Python.isBlockKeyword header = true ∨ header = "cond".toList := by
        rw [S7.looksLikeBlockKeyword,Bool.or_eq_true,decide_eq_true_eq,or_comm]
        rfl
      split
      · exact Follows.throw _ _ _ _
      · simp only [keyword]
        split
        · exact Follows.throw _ _ _ _
        · rw [← termToSexpr_congr trims_python strip_eq trims_s7 plain]
          refine (Follows.pure _).of_iff ?_
          have nonempty : header ≠ [] := by
            rintro rfl
            cases last
          simp [nonempty]

theorem clause_follows :
    Follows (ClausePortable header conditions) Differ (Python.clauseToSexpr header child)
      (S7.clauseToSexpr header child') := by
  unfold Python.clauseToSexpr S7.clauseToSexpr ClausePortable
  have inner : ∀ d ∈ header.tail, Plain d := fun d inside => plain d (List.mem_of_mem_tail inside)
  cases header.head? with
  | none => exact Follows.throw _ _ _ _
  | some first =>
    simp only [ne_eq,Option.some.injEq]
    split
    · exact Follows.throw _ _ _ _
    · rw [← strip_eq _ inner]
      cases found : splitFirstColonAtDepth0 (Python.strip header.tail) with
      | none => exact Follows.throw _ _ _ _
      | some parts =>
        obtain ⟨test,result⟩ := parts
        obtain ⟨split,_⟩ := splitFirstColon_eq_some.mp found
        have within (c : Char) (inside : c ∈ test ++ ':'::result) : Plain c := strip_plain inner c (split ▸ inside)
        have testPlain : ∀ c ∈ test, Plain c := fun c inside => within c (List.mem_append_left _ inside)
        have resultPlain : ∀ c ∈ result, Plain c :=
          fun c inside => within c (List.mem_append_right _ (List.mem_cons_of_mem _ inside))
        dsimp only
        rw [← strip_eq _ testPlain,← strip_eq _ resultPlain,
          ← termToSexpr_congr trims_python strip_eq trims_s7 (strip_plain testPlain)]
        refine (Follows.map (line_follows (strip_plain resultPlain) alike) _ ?_).of_iff (by simp)
        intro body body' differ
        exact ((differ.cons ' ').append_left _).append_right _ _

end Following

def Forest.Plain : Forest → Prop
  | .nil => True
  | .leaf header rest => (∀ c ∈ header, Shrubbery.Plain c) ∧ rest.Plain
  | .node header child rest => (∀ c ∈ header, Shrubbery.Plain c) ∧ child.Plain ∧ rest.Plain

theorem siblings_plain {fuel indent : Nat} {lines : List Line} (plain : ∀ line ∈ lines, ∀ c ∈ line.2, Plain c) :
    (siblings fuel indent lines).1.Plain ∧ ∀ line ∈ (siblings fuel indent lines).2, ∀ c ∈ line.2, Plain c := by
  induction fuel generalizing indent lines with
  | zero => exact ⟨trivial,plain⟩
  | succ fuel ih =>
    cases lines with
    | nil => exact ⟨trivial,plain⟩
    | cons line rest =>
      obtain ⟨i,header⟩ := line
      have own : ∀ c ∈ header, Plain c := plain (i,header) List.mem_cons_self
      have restPlain : ∀ line ∈ rest, ∀ c ∈ line.2, Plain c := fun line inside => plain line (List.mem_cons_of_mem _ inside)
      rw [siblings.eq_def]
      dsimp only
      split
      · cases rest with
        | nil => exact ⟨⟨own,trivial⟩,restPlain⟩
        | cons next more =>
          dsimp only
          split
          · have child := @ih next.1 _ restPlain
            have later := @ih indent _ child.2
            exact ⟨⟨own,child.1,later.1⟩,later.2⟩
          · have later := @ih indent _ restPlain
            exact ⟨⟨own,later.1⟩,later.2⟩
      · exact ⟨trivial,plain⟩

theorem buildBlockTree_plain {minIndent : Nat} {lines : List Line} (plain : ∀ line ∈ lines, ∀ c ∈ line.2, Plain c) :
    (buildBlockTree lines minIndent).1.Plain := by
  unfold buildBlockTree
  split
  · trivial
  · split
    · trivial
    · exact (siblings_plain plain).1

theorem readBlock_follows {P Q : Prop} {line : Text} {child : Option Python.Readings} {child' : Option S7.Readings}
    {read : Text → Option Python.Readings → Except Python.Error Text}
    {read' : Text → Option S7.Readings → Except S7.Error Text} {rest : Except Python.Error (List Text)}
    {rest' : Except S7.Error (List Text)} (first : Follows P Differ (read line child) (read' line child'))
    (later : Follows Q (FirstDiffer Differ) rest rest') :
    Follows (P ∧ Q) (FirstDiffer Differ) (Python.readBlock read line child rest) (S7.readBlock read' line child' rest') :=
  Follows.map2 first later List.cons (fun _ _ forms forms' differ => .here forms forms' differ)
    (fun form _ _ differ => .later form differ)

theorem blockReadings_alike {block : Forest} (plain : block.Plain) :
    Alike (portable block) (Python.blockReadings block) (S7.blockReadings block) := by
  induction block with
  | nil => exact ⟨Follows.pure _,Follows.pure _⟩
  | leaf header rest ih =>
    obtain ⟨own,restPlain⟩ := plain
    have later := ih restPlain
    exact ⟨readBlock_follows (line_follows own .none) later.body,readBlock_follows (clause_follows own .none) later.clauses⟩
  | node header child rest ihChild ih =>
    obtain ⟨own,childPlain,restPlain⟩ := plain
    have inner := ihChild childPlain
    have later := ih restPlain
    exact ⟨readBlock_follows (line_follows own (.some inner)) later.body,
      readBlock_follows (clause_follows own (.some inner)) later.clauses⟩

theorem checkNoAvoidableRawToplevel_follows {block : Forest} (plain : block.Plain) {D : Unit → Unit → Prop} :
    Follows True D (Python.checkNoAvoidableRawToplevel block) (S7.checkNoAvoidableRawToplevel block) := by
  induction block with
  | nil => exact Follows.pure ()
  | leaf header rest ih =>
    obtain ⟨own,restPlain⟩ := plain
    rw [Python.checkNoAvoidableRawToplevel,S7.checkNoAvoidableRawToplevel,← strip_eq header own]
    split
    · exact Follows.throw _ _ _ _
    · exact ih restPlain
  | node header child rest _ ih => exact ih plain.2.2

/-! Whole texts. -/

/-- The lines of the text as a block tree, with the lines that fit nowhere. -/
def layout (text : Text) : Forest × List Line := buildBlockTree (S7.parseShrubLines (S7.splitLines text)) 0

theorem parseShrubLines_blank (lines : List Text) : S7.parseShrubLines (lines ++ [[]]) = S7.parseShrubLines lines := by
  induction lines with
  | nil => rfl
  | cons raw rest ih => rw [List.cons_append,S7.parseShrubLines,S7.parseShrubLines,ih]

theorem parseLines_text {text : Text} (printable : Printable text) :
    Python.parseLines (Python.splitLines text) = .ok (S7.parseShrubLines (S7.splitLines text)) := by
  have plain : ∀ line ∈ S7.splitLines text, ∀ c ∈ line, Plain c := fun line inside => splitLines_plain printable inside
  rcases splitLines_eq text with same | more
  · rw [same]
    exact parseLines_eq plain
  · rw [more,parseLines_eq,parseShrubLines_blank]
    intro line inside
    rcases List.mem_append.mp inside with old | blank
    · exact plain line old
    · rw [List.mem_singleton.mp blank]
      exact List.forall_mem_nil _

theorem parseShrubLines_plain {lines : List Text} (plain : ∀ line ∈ lines, ∀ c ∈ line, Plain c) :
    ∀ line ∈ S7.parseShrubLines lines, ∀ c ∈ line.2, Plain c := by
  induction lines with
  | nil => exact List.forall_mem_nil _
  | cons raw rest ih =>
    have later := ih (fun line inside => plain line (List.mem_cons_of_mem _ inside))
    rw [S7.parseShrubLines]
    split
    · exact later
    · refine List.forall_mem_cons.mpr ⟨fun c inside => ?_,later⟩
      have inLine := mem_of_mem_strip trims_s7 inside
      exact plain raw List.mem_cons_self c
        ((stripComment_sublist false raw).subset ((List.rdropWhile_prefix _ _).subset inLine))

/-- The texts that both readers treat alike: the first colon of every binding stands
outside brackets and strings, and a clause without an indented block has something
behind its colon. -/
def Portable (text : Text) : Prop := (portable (layout text).1).body

theorem shrubberyToScheme_follows {text : Text} (printable : Printable text) :
    Follows (Portable text) Differ (Python.shrubberyToScheme text)
      (S7.shrubberyToScheme text >>= fun out => pure (out ++ ['\n'])) := by
  have plain : (layout text).1.Plain :=
    buildBlockTree_plain (parseShrubLines_plain (fun line inside => splitLines_plain printable inside))
  unfold Python.shrubberyToScheme S7.shrubberyToScheme
  rw [parseLines_text printable]
  change Follows _ Differ ((pure (S7.parseShrubLines (S7.splitLines text)) : Except _ _) >>= _) _
  rw [pure_bind]
  unfold Portable
  unfold layout at plain ⊢
  generalize buildBlockTree (S7.parseShrubLines (S7.splitLines text)) 0 = tree at plain ⊢
  obtain ⟨tree,left⟩ := tree
  cases left with
  | cons line more => exact Follows.throw _ _ _ _
  | nil =>
    simp only [bind_assoc,pure_bind]
    refine (Follows.map2 (checkNoAvoidableRawToplevel_follows plain (D := fun _ _ => False))
      (blockReadings_alike plain).body (fun _ forms => join ['\n'] forms ++ ['\n']) ?_ ?_).of_iff (by rw [true_and])
    · exact fun _ _ _ _ never => never.elim
    · exact fun _ forms forms' first => (differ_join ['\n'] first).append_right _ _

/-! What the Python reader reads. -/

/-- A call whose arguments are bindings. -/
def LetAccepted (text : Text) : Prop := ∃ call ∈ parseCall Python.strip text, ∀ part ∈ tidy call.2, ':' ∈ part

def HeaderAccepted (header : Text) (child : Conditions) : Prop :=
  if "define ".toList.isPrefixOf header then (parseCall Python.strip (header.drop 7)).isSome ∧ child.body
  else if "let ".toList.isPrefixOf header then LetAccepted (Python.strip (header.drop 4)) ∧ child.body
  else if "let(".toList.isPrefixOf header ∨ "let*(".toList.isPrefixOf header then LetAccepted header ∧ child.body
  else header = "cond".toList ∧ child.clauses

def LineAccepted (header : Text) (child : Option Conditions) : Prop :=
  if header.getLast? = some ':' then ∃ block ∈ child, HeaderAccepted (Python.strip header.dropLast) block
  else child = none ∧ Python.isBlockKeyword header = false

def ClauseAccepted (line : Text) (child : Option Conditions) : Prop :=
  line.head? = some '|' ∧
    ∃ split ∈ splitFirstColonAtDepth0 (Python.strip line.tail), LineAccepted (Python.strip split.2) child

def accepted : Forest → Conditions
  | .nil => ⟨True,True⟩
  | .leaf header rest =>
    ⟨LineAccepted header none ∧ (accepted rest).body,ClauseAccepted header none ∧ (accepted rest).clauses⟩
  | .node header child rest =>
    ⟨LineAccepted header (some (accepted child)) ∧ (accepted rest).body,
      ClauseAccepted header (some (accepted child)) ∧ (accepted rest).clauses⟩

/-- The conditions say when a block is read. -/
structure Accepts (conditions : Conditions) (python : Python.Readings) : Prop where
  body : python.body.isOk = true ↔ conditions.body
  clauses : python.clauses.isOk = true ↔ conditions.clauses

theorem parseBinding_isOk (part : Text) : (Python.parseBinding part).isOk = true ↔ ':' ∈ part := by
  unfold Python.parseBinding
  by_cases present : ':' ∈ part
  · simp [present,isOk_pure]
  · simp [present,isOk_throw]

theorem bindingSexpr_isOk {text name : Text} {args : List Text} (found : parseCall Python.strip text = some (name,args)) :
    (Python.bindingSexpr args).isOk = true ↔ ∀ part ∈ tidy args, ':' ∈ part := by
  rw [pythonBindingSexpr_eq found,isOk_map,isOk_mapM]
  simp only [parseBinding_isOk]

section Accepting
variable (header : Text) {conditions : Conditions} {python : Python.Readings} (accepts : Accepts conditions python)
include accepts

theorem let_isOk (text : Text) (opening : Text → Text) (e : Python.Error) :
    (match parseCall Python.strip text with
      | none => throw e
      | some (name,args) => do
        let bindings ← Python.bindingSexpr args
        let body ← python.body
        pure (opening name ++ ' '::bindings ++ ' '::join [' '] body ++ [')'])).isOk = true ↔
      LetAccepted text ∧ conditions.body := by
  unfold LetAccepted
  cases found : parseCall Python.strip text with
  | none => simp [isOk_throw]
  | some call =>
    dsimp only
    rw [isOk_map2,Bool.and_eq_true,bindingSexpr_isOk found,accepts.body]
    simp

theorem blockHeader_isOk :
    (Python.blockHeaderToSexpr header (some python)).isOk = true ↔ HeaderAccepted header conditions := by
  unfold Python.blockHeaderToSexpr HeaderAccepted
  dsimp only
  by_cases isDefine : "define ".toList.isPrefixOf header = true
  · simp only [if_pos isDefine]
    cases parseCall Python.strip (header.drop 7) with
    | none => simp [isOk_throw]
    | some call =>
      dsimp only
      rw [isOk_map,accepts.body]
      simp
  · simp only [if_neg isDefine]
    by_cases isNamed : "let ".toList.isPrefixOf header = true
    · simp only [if_pos isNamed]
      exact let_isOk accepts _ (fun name => "(let ".toList ++ name) _
    · simp only [if_neg isNamed]
      by_cases bare : header = "let".toList ∨ header = "let*".toList
      · obtain ⟨noList,noCond⟩ := bare_let bare
        rw [if_pos bare,if_neg noList,isOk_throw]
        exact ⟨fun never => (by cases never),fun both => absurd both.1 noCond⟩
      · simp only [if_neg bare]
        by_cases isLet : "let(".toList.isPrefixOf header = true ∨ "let*(".toList.isPrefixOf header = true
        · simp only [if_pos isLet]
          exact let_isOk accepts _ (fun _ => '('::_) _
        · simp only [if_neg isLet]
          by_cases isCond : header = "cond".toList
          · rw [if_pos isCond,isOk_map,accepts.clauses]
            exact ⟨fun read => ⟨isCond,read⟩,And.right⟩
          · rw [if_neg isCond,isOk_throw]
            exact ⟨fun never => (by cases never),fun both => absurd both.1 isCond⟩

end Accepting

/-- A block that both the reading and the conditions have. -/
inductive AcceptsChild : Option Conditions → Option Python.Readings → Prop
  | none : AcceptsChild none none
  | some {conditions : Conditions} {python : Python.Readings} : Accepts conditions python →
      AcceptsChild (some conditions) (some python)

theorem line_isOk (header : Text) {conditions : Option Conditions} {child : Option Python.Readings}
    (accepts : AcceptsChild conditions child) :
    (Python.lineToSexpr header child).isOk = true ↔ LineAccepted header conditions := by
  unfold Python.lineToSexpr LineAccepted
  by_cases colon : header.getLast? = some ':'
  · rw [if_pos colon,if_pos colon]
    cases accepts with
    | none => simp [Python.blockHeaderToSexpr,isOk_throw]
    | some accepts => simp [blockHeader_isOk _ accepts]
  · rw [if_neg colon,if_neg colon]
    cases accepts with
    | some => simp [isOk_throw]
    | none =>
      have keyword : header = "cond".toList → Python.isBlockKeyword header = true := by
        rintro rfl
        decide
      cases reserved : Python.isBlockKeyword header with
      | true => simp [isOk_throw]
      | false =>
        have other : header ≠ "cond".toList := fun same => by simp [keyword same] at reserved
        have plain : ¬ (false = true ∨ header = "cond".toList) := by
          rintro (never | same)
          · cases never
          · exact other same
        rw [if_neg (by simp),if_neg plain,isOk_pure]
        simp

theorem clause_isOk (line : Text) {conditions : Option Conditions} {child : Option Python.Readings}
    (accepts : AcceptsChild conditions child) :
    (Python.clauseToSexpr line child).isOk = true ↔ ClauseAccepted line conditions := by
  unfold Python.clauseToSexpr ClauseAccepted
  by_cases bar : line.head? = some '|'
  · rw [if_neg (not_not_intro bar)]
    cases splitFirstColonAtDepth0 (Python.strip line.tail) with
    | none => simp [isOk_throw]
    | some split =>
      dsimp only
      rw [isOk_map,line_isOk _ accepts]
      simp [bar]
  · simp [bar,isOk_throw]

theorem readBlock_isOk (read : Text → Option Python.Readings → Except Python.Error Text) (line : Text)
    (child : Option Python.Readings) (rest : Except Python.Error (List Text)) :
    (Python.readBlock read line child rest).isOk = true ↔ (read line child).isOk = true ∧ rest.isOk = true := by
  rw [Python.readBlock,isOk_map2,Bool.and_eq_true]

theorem blockReadings_accepts (block : Forest) : Accepts (accepted block) (Python.blockReadings block) := by
  induction block with
  | nil => exact ⟨by simp [Python.blockReadings,accepted,isOk_pure],by simp [Python.blockReadings,accepted,isOk_pure]⟩
  | leaf header rest later =>
    refine ⟨?_,?_⟩
    · rw [Python.blockReadings,readBlock_isOk,line_isOk header .none,later.body,accepted]
    · rw [Python.blockReadings,readBlock_isOk,clause_isOk header .none,later.clauses,accepted]
  | node header child rest inner later =>
    refine ⟨?_,?_⟩
    · rw [Python.blockReadings,readBlock_isOk,line_isOk header (.some inner),later.body,accepted]
    · rw [Python.blockReadings,readBlock_isOk,clause_isOk header (.some inner),later.clauses,accepted]

/-- The texts that the Python reader reads: every line fits into the block tree, no
top-level line is in raw parentheses, and every line is one of the reader's forms. -/
def Accepted (text : Text) : Prop :=
  (layout text).2 = [] ∧ (Python.checkNoAvoidableRawToplevel (layout text).1).isOk = true ∧
    (accepted (layout text).1).body

theorem shrubberyToScheme_isOk {text : Text} (printable : Printable text) :
    (Python.shrubberyToScheme text).isOk = true ↔ Accepted text := by
  unfold Python.shrubberyToScheme Accepted layout
  rw [parseLines_text printable]
  change ((pure (S7.parseShrubLines (S7.splitLines text)) : Except _ _) >>= _).isOk = true ↔ _
  rw [pure_bind]
  generalize buildBlockTree (S7.parseShrubLines (S7.splitLines text)) 0 = tree
  obtain ⟨tree,left⟩ := tree
  cases left with
  | cons line more => simp [isOk_throw]
  | nil =>
    have forms := (blockReadings_accepts tree).body
    simp only [true_and]
    rw [isOk_map2,Bool.and_eq_true,Python.blockToBody,forms]

/-- Both readers fail, or neither does, and what they read is the same up to the last
newline. -/
def Agree (text : Text) : Prop :=
  ((∃ e, Python.shrubberyToScheme text = .error e) ↔ ∃ e, S7.shrubberyToScheme text = .error e) ∧
    ∀ out out', Python.shrubberyToScheme text = .ok out → S7.shrubberyToScheme text = .ok out' → out = out' ++ ['\n']

/-- The readers agree on a printable text exactly if it is portable or not read at all. -/
theorem readers_agree_iff (text : Text) (printable : Printable text) : Agree text ↔ (Accepted text → Portable text) := by
  have follows := shrubberyToScheme_follows printable
  rw [← shrubberyToScheme_isOk printable]
  unfold Agree
  cases python : Python.shrubberyToScheme text with
  | error e =>
    obtain ⟨e',failed⟩ := follows.rejects e python
    cases s7 : S7.shrubberyToScheme text with
    | error e => simp [isOk_error]
    | ok out =>
      rw [s7] at failed
      cases failed
  | ok out =>
    cases s7 : S7.shrubberyToScheme text with
    | error e =>
      have fails : ¬ Portable text := by
        intro portable
        have same := follows.agrees out python portable
        rw [s7] at same
        cases same
      simp [isOk_ok,fails]
    | ok out' =>
      have same : out = out' ++ ['\n'] ↔ Portable text := by
        constructor
        · intro equal
          by_contra fails
          exact (follows.differs out (out' ++ ['\n']) python fails (by rw [s7]; rfl)).ne equal
        · intro portable
          have ran := follows.agrees out python portable
          rw [s7] at ran
          exact (Except.ok.inj ran).symm
      simp [isOk_ok,same]

instance (text : Text) : Decidable (Printable text) :=
  decidable_of_iff (text.all (fun c => c = '\n' || (32 ≤ c.toNat && c.toNat ≤ 126)) = true)
    (by simp [Printable,Plain])

theorem readers_agree_iff_roll :
    Agree "define f(x):\n  cond:\n    | x: roll(x, 1)\n".toList ∧
      Portable "define f(x):\n  cond:\n    | x: roll(x, 1)\n".toList := by
  have printable : Printable "define f(x):\n  cond:\n    | x: roll(x, 1)\n".toList := by decide +kernel
  have read : Python.shrubberyToScheme "define f(x):\n  cond:\n    | x: roll(x, 1)\n".toList =
        .ok "(define (f x) (cond (x (roll x 1))))\n".toList ∧
      S7.shrubberyToScheme "define f(x):\n  cond:\n    | x: roll(x, 1)\n".toList =
        .ok "(define (f x) (cond (x (roll x 1))))".toList := by decide +kernel
  have agree : Agree "define f(x):\n  cond:\n    | x: roll(x, 1)\n".toList := by
    rw [Agree,read.1,read.2]
    exact ⟨by simp,fun out out' same same' => by rw [← Except.ok.inj same,← Except.ok.inj same']; decide +kernel⟩
  refine ⟨agree,(readers_agree_iff _ printable).mp agree ((shrubberyToScheme_isOk printable).mp ?_)⟩
  rw [read.1]
  rfl

/-- A clause with nothing behind its colon is read by Python only, and a binding with
a colon in brackets is split at different places. -/
theorem readers_part :
    (Printable "cond:\n  | a:\n".toList ∧ ¬ Agree "cond:\n  | a:\n".toList) ∧
      Printable "let(f(x:y): 1):\n  z\n".toList ∧ ¬ Agree "let(f(x:y): 1):\n  z\n".toList := by
  have clause : Python.shrubberyToScheme "cond:\n  | a:\n".toList = .ok "(cond (a ))\n".toList ∧
      S7.shrubberyToScheme "cond:\n  | a:\n".toList = .error .outOfRange := by decide +kernel
  have binding : Python.shrubberyToScheme "let(f(x:y): 1):\n  z\n".toList = .ok "(let ((f(x y): 1)) z)\n".toList ∧
      S7.shrubberyToScheme "let(f(x:y): 1):\n  z\n".toList = .ok "(let ((f(x:y) 1)) z)".toList := by decide +kernel
  refine ⟨⟨by decide +kernel,fun agree => ?_⟩,by decide +kernel,fun agree => ?_⟩
  · obtain ⟨e,failed⟩ := agree.1.mpr ⟨_,clause.2⟩
    rw [clause.1] at failed
    cases failed
  · exact absurd (agree.2 _ _ binding.1 binding.2) (by decide +kernel)

end WarpLoop.Shrubbery
