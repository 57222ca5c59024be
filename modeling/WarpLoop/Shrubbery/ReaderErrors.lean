import WarpLoop.Shrubbery.Portable

/-! How the Python reader fails, on any text: with an error of its own, or where it unpacks a
call that it has not found. -/
namespace WarpLoop.Shrubbery
open Lib.Outcome

namespace Python

/-- Every error but the exception that unpacking nothing raises. -/
def Error.isShrubberyError : Error → Bool
  | .notUnpackable => false
  | _ => true

inductive Exit
  | wrote (out : Text)
  | parseError (e : Error)
  | uncaught (e : Error)
deriving DecidableEq, Repr

/-- What the program does with the text of its file. -/
def main (text : Text) : Exit :=
  match shrubberyToScheme text with
  | .ok out => .wrote out
  | .error e => if e.isShrubberyError then .parseError e else .uncaught e

/-! The lines of any text. -/

/-- A line that has content once its comment is gone. -/
def HasContent (raw : Text) : Prop := strip (rstrip (stripComment false raw)) ≠ []

instance (raw : Text) : Decidable (HasContent raw) := inferInstanceAs (Decidable (_ ≠ _))

def contentLine (raw : Text) : Line :=
  (indentOf (rstrip (stripComment false raw)),strip (rstrip (stripComment false raw)))

def contentLines (lines : List Text) : List Line := (lines.filter HasContent).map contentLine

/-- What `indent_of` counts are spaces, so the search for a tab among them finds none. -/
theorem no_tab_in_indentation (line : Text) : '\t' ∉ line.take (indentOf line) := by
  rw [indentOf_eq,S7.leadingSpaceCount,← List.prefix_iff_eq_take.mp (List.takeWhile_prefix _)]
  intro inside
  exact absurd (List.mem_takeWhile_imp inside) (by decide)

theorem parseLines_eq_ok (lines : List Text) : parseLines lines = .ok (contentLines lines) := by
  induction lines with
  | nil => rfl
  | cons raw rest ih =>
    rw [parseLines]
    by_cases blank : strip (rstrip (stripComment false raw)) = []
    · have skipped : ¬ HasContent raw := fun content => content blank
      rw [if_pos blank,ih,contentLines,contentLines,List.filter_cons_of_neg (by simpa using skipped)]
    · have kept : HasContent raw := blank
      rw [if_neg blank,if_neg (no_tab_in_indentation _),ih,contentLines,contentLines,List.filter_cons_of_pos (by simpa using kept)]
      rfl

/-- The lines of the text as a block tree, with the lines that fit nowhere. -/
def layout (text : Text) : Forest × List Line := buildBlockTree (contentLines (splitLines text)) 0

theorem shrubberyToScheme_eq (text : Text) :
    shrubberyToScheme text =
      match layout text with
      | (_,line::_) => throw (.unexpectedIndentation line)
      | (tree,[]) =>
        checkNoAvoidableRawToplevel tree >>= fun _ => blockToBody tree >>= fun forms => pure (join ['\n'] forms ++ ['\n']) := by
  rw [shrubberyToScheme,parseLines_eq_ok]
  rfl

end Python

/-! The texts that are read. -/

/-- Every line fits into the block tree, no top-level line is in raw parentheses, and every line
is one of the reader's forms. -/
def TextAccepted (text : Text) : Prop :=
  (Python.layout text).2 = [] ∧ (Python.checkNoAvoidableRawToplevel (Python.layout text).1).isOk = true ∧
    (accepted (Python.layout text).1).body

theorem isOk_iff_accepted (text : Text) : (Python.shrubberyToScheme text).isOk = true ↔ TextAccepted text := by
  rw [Python.shrubberyToScheme_eq,TextAccepted]
  generalize Python.layout text = tree
  obtain ⟨tree,left⟩ := tree
  cases left with
  | cons line more => simp [isOk_throw]
  | nil =>
    have forms := (blockReadings_accepts tree).body
    rw [isOk_map2,Bool.and_eq_true,Python.blockToBody,forms]
    simp

/-! The texts on which unpacking fails: the conditions of a block say that reading it gets as
far as a header of that kind. -/

/-- A header of bindings whose parenthesis does not close at its end. -/
def Unclosed (header : Text) : Prop :=
  ("let(".toList.isPrefixOf header ∨ "let*(".toList.isPrefixOf header) ∧ header.getLast? ≠ some ')'

def LineCrashes (header : Text) (child : Option Conditions) : Prop :=
  header.getLast? = some ':' ∧
    ∃ block ∈ child, HeaderAccepted (Python.strip header.dropLast) block ∨ Unclosed (Python.strip header.dropLast)

def ClauseCrashes (line : Text) (child : Option Conditions) : Prop :=
  line.head? = some '|' ∧
    ∃ split ∈ splitFirstColonAtDepth0 (Python.strip line.tail), LineCrashes (Python.strip split.2) child

def crashes : Forest → Conditions
  | .nil => ⟨False,False⟩
  | .leaf header rest =>
    ⟨LineAccepted header none ∧ (crashes rest).body,ClauseAccepted header none ∧ (crashes rest).clauses⟩
  | .node header child rest =>
    ⟨LineCrashes header (some (crashes child)) ∨ LineAccepted header (some (accepted child)) ∧ (crashes rest).body,
      ClauseCrashes header (some (crashes child)) ∨ ClauseAccepted header (some (accepted child)) ∧ (crashes rest).clauses⟩

/-- A header of unclosed bindings is reached before any line that is an error. -/
def Crashes (text : Text) : Prop :=
  (Python.layout text).2 = [] ∧ (Python.checkNoAvoidableRawToplevel (Python.layout text).1).isOk = true ∧
    (crashes (Python.layout text).1).body

/-- The conditions say when unpacking fails in a block. -/
structure CrashesAs (conditions : Conditions) (python : Python.Readings) : Prop where
  body : python.body = .error .notUnpackable ↔ conditions.body
  clauses : python.clauses = .error .notUnpackable ↔ conditions.clauses

theorem parseBinding_unpacks (part : Text) : Python.parseBinding part ≠ .error .notUnpackable := by
  unfold Python.parseBinding
  split
  · intro failed
    cases throw_eq_error.mp failed
  · exact pure_eq_error.mp

theorem bindingSexpr_unpacks (args : List Text) : Python.bindingSexpr args ≠ .error .notUnpackable := by
  unfold Python.bindingSexpr
  split
  · exact pure_eq_error.mp
  · intro failed
    rw [map_eq_error] at failed
    obtain ⟨part,_,fails⟩ := mapM_eq_error failed
    exact parseBinding_unpacks part fails

/-- A header of bindings is a call exactly if it ends with a parenthesis. -/
theorem parseCall_let {header : Text} (stripped : Python.strip header = header)
    (bindings : "let(".toList.isPrefixOf header = true ∨ "let*(".toList.isPrefixOf header = true) :
    parseCall Python.strip header = none ↔ header.getLast? ≠ some ')' := by
  have found : ∃ name rest, splitName 0 header = some (name,rest) ∧ header.head? = some 'l' ∧ (Python.strip name).head? = some 'l' := by
    rcases bindings with plain | starred
    · obtain ⟨rest,rfl⟩ := List.isPrefixOf_iff_prefix.mp plain
      exact ⟨"let".toList,rest,rfl,rfl,by decide⟩
    · obtain ⟨rest,rfl⟩ := List.isPrefixOf_iff_prefix.mp starred
      exact ⟨"let*".toList,rest,rfl,rfl,by decide⟩
  obtain ⟨name,rest,split_,first,start⟩ := found
  have letter : idStartChar 'l' = true := by decide
  unfold parseCall
  simp [stripped,first,split_,start,letter]

section Crashing
variable (header : Text) {conditions : Conditions} {python : Python.Readings} (crash : CrashesAs conditions python)
include crash

theorem let_crashes (text : Text) (opening : Text → Text) (e : Python.Error) :
    (match parseCall Python.strip text with
      | none => throw e
      | some (name,args) => do
        let bindings ← Python.bindingSexpr args
        let body ← python.body
        pure (opening name ++ ' '::bindings ++ ' '::join [' '] body ++ [')'])) = .error .notUnpackable ↔
      LetAccepted text ∧ conditions.body ∨ parseCall Python.strip text = none ∧ e = .notUnpackable := by
  unfold LetAccepted
  cases found : parseCall Python.strip text with
  | none => simp [throw_eq_error]
  | some call =>
    dsimp only
    rw [map2_eq_error,bindingSexpr_isOk found,crash.body]
    simp [bindingSexpr_unpacks]

theorem blockHeader_crashes (stripped : Python.strip header = header) :
    Python.blockHeaderToSexpr header (some python) = .error .notUnpackable ↔
      HeaderAccepted header conditions ∨ Unclosed header := by
  have closed (noList : ¬ ("let(".toList.isPrefixOf header = true ∨ "let*(".toList.isPrefixOf header = true)) :
      ¬ Unclosed header := fun both => noList both.1
  unfold Python.blockHeaderToSexpr HeaderAccepted
  dsimp only
  by_cases isDefine : "define ".toList.isPrefixOf header = true
  · obtain ⟨rest,rfl⟩ := List.isPrefixOf_iff_prefix.mp isDefine
    rw [or_iff_left (closed (by simp))]
    simp only [if_pos isDefine]
    cases parseCall Python.strip (("define ".toList ++ rest).drop 7) with
    | none => simp [throw_eq_error]
    | some call =>
      dsimp only
      rw [map_eq_error,crash.body]
      simp
  · simp only [if_neg isDefine]
    by_cases isNamed : "let ".toList.isPrefixOf header = true
    · obtain ⟨rest,rfl⟩ := List.isPrefixOf_iff_prefix.mp isNamed
      rw [or_iff_left (closed (by simp))]
      simp only [if_pos isNamed]
      refine (let_crashes crash _ (fun name => "(let ".toList ++ name) _).trans ?_
      simp
    · simp only [if_neg isNamed]
      by_cases bare : header = "let".toList ∨ header = "let*".toList
      · obtain ⟨noList,noCond⟩ := bare_let bare
        rw [or_iff_left (closed noList),if_pos bare,if_neg noList,throw_eq_error]
        exact ⟨fun never => (by cases never),fun both => absurd both.1 noCond⟩
      · simp only [if_neg bare]
        by_cases isLet : "let(".toList.isPrefixOf header = true ∨ "let*(".toList.isPrefixOf header = true
        · simp only [if_pos isLet]
          refine (let_crashes crash header (fun _ => '('::_) .notUnpackable).trans ?_
          rw [parseCall_let stripped isLet,Unclosed,and_iff_left rfl,and_iff_right isLet]
        · rw [or_iff_left (closed isLet)]
          simp only [if_neg isLet]
          by_cases isCond : header = "cond".toList
          · rw [if_pos isCond,map_eq_error,crash.clauses,and_iff_right isCond]
          · rw [if_neg isCond,throw_eq_error]
            exact ⟨fun never => (by cases never),fun both => absurd both.1 isCond⟩

end Crashing

theorem line_crashes (header : Text) {conditions : Option Conditions} {child : Option Python.Readings}
    (crash : Option.Rel CrashesAs conditions child) :
    Python.lineToSexpr header child = .error .notUnpackable ↔ LineCrashes header conditions := by
  unfold Python.lineToSexpr LineCrashes
  by_cases colon : header.getLast? = some ':'
  · rw [if_pos colon,and_iff_right colon]
    cases crash with
    | none => simp [Python.blockHeaderToSexpr,throw_eq_error]
    | some crash =>
      refine (blockHeader_crashes _ crash (stripWith_idem Python.isSpace header.dropLast)).trans ?_
      simp [Python.strip]
  · rw [if_neg colon]
    constructor
    · intro failed
      split at failed
      · cases throw_eq_error.mp failed
      · split at failed
        · cases throw_eq_error.mp failed
        · exact (pure_eq_error.mp failed).elim
    · exact fun both => absurd both.1 colon

theorem clause_crashes (line : Text) {conditions : Option Conditions} {child : Option Python.Readings}
    (crash : Option.Rel CrashesAs conditions child) :
    Python.clauseToSexpr line child = .error .notUnpackable ↔ ClauseCrashes line conditions := by
  unfold Python.clauseToSexpr ClauseCrashes
  by_cases bar : line.head? = some '|'
  · rw [if_neg (not_not_intro bar),and_iff_right bar]
    cases splitFirstColonAtDepth0 (Python.strip line.tail) with
    | none => simp [throw_eq_error]
    | some split =>
      dsimp only
      rw [map_eq_error,line_crashes _ crash]
      simp
  · rw [if_pos bar,throw_eq_error]
    exact ⟨fun never => (by cases never),fun both => absurd both.1 bar⟩

theorem readBlock_crashes {read : Text → Option Python.Readings → Except Python.Error Text} {line : Text}
    {child : Option Python.Readings} {rest : Except Python.Error (List Text)} :
    Python.readBlock read line child rest = .error .notUnpackable ↔
      read line child = .error .notUnpackable ∨ (read line child).isOk = true ∧ rest = .error .notUnpackable := by
  rw [Python.readBlock,map2_eq_error]

theorem blockReadings_crashes (block : Forest) : CrashesAs (crashes block) (Python.blockReadings block) := by
  induction block with
  | nil => exact ⟨pure_eq_error,pure_eq_error⟩
  | leaf header rest later =>
    have line : ¬ LineCrashes header none := fun ⟨_,block,never,_⟩ => (by cases never)
    have clause : ¬ ClauseCrashes header none := fun ⟨_,_,_,_,block,never,_⟩ => (by cases never)
    refine ⟨?_,?_⟩
    · rw [Python.blockReadings,readBlock_crashes,line_crashes header .none,line_isOk header .none,later.body,crashes,or_iff_right line]
    · rw [Python.blockReadings,readBlock_crashes,clause_crashes header .none,clause_isOk header .none,later.clauses,crashes,
        or_iff_right clause]
  | node header child rest inner later =>
    have accepts := blockReadings_accepts child
    refine ⟨?_,?_⟩
    · rw [Python.blockReadings,readBlock_crashes,line_crashes header (.some inner),line_isOk header (.some accepts),later.body,crashes]
    · rw [Python.blockReadings,readBlock_crashes,clause_crashes header (.some inner),clause_isOk header (.some accepts),
        later.clauses,crashes]

theorem checkNoAvoidableRawToplevel_unpacks (tree : Forest) :
    Python.checkNoAvoidableRawToplevel tree ≠ .error .notUnpackable := by
  induction tree with
  | nil => exact pure_eq_error.mp
  | leaf header rest ih =>
    rw [Python.checkNoAvoidableRawToplevel]
    split
    · intro failed
      cases throw_eq_error.mp failed
    · exact ih
  | node header child rest _ ih => exact ih

theorem unpacking_fails_iff (text : Text) : Python.shrubberyToScheme text = .error .notUnpackable ↔ Crashes text := by
  rw [Python.shrubberyToScheme_eq,Crashes]
  generalize Python.layout text = tree
  obtain ⟨tree,left⟩ := tree
  cases left with
  | cons line more => simp [throw_eq_error]
  | nil =>
    have body := (blockReadings_crashes tree).body
    rw [map2_eq_error,Python.blockToBody,body]
    simp [checkNoAvoidableRawToplevel_unpacks]

/-- The reader fails with its own error, which the program prints, unless it comes to a header
of bindings that does not end with a parenthesis. -/
theorem reader_errors_iff (text : Text) :
    (∀ e, Python.shrubberyToScheme text = .error e → e.isShrubberyError = true ∧ Python.main text = .parseError e) ↔
      ¬ Crashes text := by
  rw [← unpacking_fails_iff]
  constructor
  · intro own failed
    cases (own _ failed).1
  · intro unpacks e failed
    have proper : e.isShrubberyError = true := by
      cases e with
      | notUnpackable => exact absurd failed unpacks
      | _ => rfl
    refine ⟨proper,?_⟩
    rw [Python.main,failed]
    exact if_pos proper

theorem unclosed_let_not_unpackable :
    ¬ ∀ e, Python.shrubberyToScheme "let(a: 1) b:\n  c".toList = .error e →
      e.isShrubberyError = true ∧ Python.main "let(a: 1) b:\n  c".toList = .parseError e := by
  intro own
  have failed : Python.shrubberyToScheme "let(a: 1) b:\n  c".toList = .error .notUnpackable := by decide +kernel
  cases (own _ failed).1

end WarpLoop.Shrubbery
