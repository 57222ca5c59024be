import Mathlib.Data.List.Basic

/-! S-expressions and their tokens. A text spells a list of tokens if it reads as them
in front of anything that ends a token. -/
namespace WarpLoop.Lib.Tokens

inductive Token
  | opening
  | closing
  | atom (text : List Char)
  | str (content : List Char)
deriving DecidableEq, Repr

inductive Sexp
  | atom (text : List Char)
  | str (content : List Char)
  | list (items : List Sexp)
deriving Repr

mutual

def Sexp.tokens : Sexp → List Token
  | .atom text => [.atom text]
  | .str content => [.str content]
  | .list items => .opening::allTokens items ++ [.closing]

def allTokens : List Sexp → List Token
  | [] => []
  | s::rest => s.tokens ++ allTokens rest

end

def isDelimiter (c : Char) : Bool := c.isWhitespace || c = '(' || c = ')' || c = '"'

def flush (cur : List Char) : List Token := if cur = [] then [] else [.atom cur]

/-- The tokens of a text, with the atom or the string that is read so far. -/
def lexFrom (inStr : Bool) (cur : List Char) : List Char → List Token
  | [] => if inStr then [.str cur] else flush cur
  | c::rest =>
    if inStr then
      if c = '"' then .str cur::lexFrom false [] rest else lexFrom true (cur ++ [c]) rest
    else if c = '"' then flush cur ++ lexFrom true [] rest
    else if c = '(' then flush cur ++ .opening::lexFrom false [] rest
    else if c = ')' then flush cur ++ .closing::lexFrom false [] rest
    else if c.isWhitespace then flush cur ++ lexFrom false [] rest
    else lexFrom false (cur ++ [c]) rest

def lex (text : List Char) : List Token := lexFrom false [] text

def Delimited (rest : List Char) : Prop := ∀ c, rest.head? = some c → isDelimiter c = true

def Spells (text : List Char) (tokens : List Token) : Prop :=
  ∀ rest, Delimited rest → lex (text ++ rest) = tokens ++ lex rest

variable {text text' : List Char} {tokens tokens' : List Token}

theorem Spells.lex_eq (spells : Spells text tokens) : lex text = tokens := by
  have whole := spells [] (fun c first => by cases first)
  have nothing : lex [] = [] := rfl
  rwa [List.append_nil,nothing,List.append_nil] at whole

theorem lexFrom_flush {rest : List Char} (delimited : Delimited rest) (cur : List Char) :
    lexFrom false cur rest = flush cur ++ lex rest := by
  cases rest with
  | nil => simp [lex,lexFrom,flush]
  | cons c more =>
    have ends : isDelimiter c = true := delimited c rfl
    simp only [isDelimiter,Bool.or_eq_true,decide_eq_true_eq] at ends
    rcases ends with ((space | rfl) | rfl) | rfl
    · have others : c ≠ '"' ∧ c ≠ '(' ∧ c ≠ ')' := by
        refine ⟨?_,?_,?_⟩ <;> rintro rfl <;> exact absurd space (by decide)
      simp [lex,lexFrom,others,space,flush]
    all_goals simp [lex,lexFrom,flush]

theorem lexFrom_atom {a rest : List Char} (clean : ∀ c ∈ a, isDelimiter c = false) (cur : List Char) :
    lexFrom false cur (a ++ rest) = lexFrom false (cur ++ a) rest := by
  induction a generalizing cur with
  | nil => rw [List.nil_append,List.append_nil]
  | cons c more ih =>
    have own : isDelimiter c = false := clean c List.mem_cons_self
    simp only [isDelimiter,Bool.or_eq_false_iff,decide_eq_false_iff_not] at own
    have step : lexFrom false cur (c::(more ++ rest)) = lexFrom false (cur ++ [c]) (more ++ rest) := by
      simp [lexFrom,own]
    rw [List.cons_append,step,ih (fun d inside => clean d (List.mem_cons_of_mem _ inside)),List.append_assoc]
    rfl

theorem lexFrom_str {s rest : List Char} (unquoted : '"' ∉ s) (cur : List Char) :
    lexFrom true cur (s ++ '"'::rest) = .str (cur ++ s)::lex rest := by
  induction s generalizing cur with
  | nil => simp [lexFrom,lex]
  | cons c more ih =>
    simp only [List.mem_cons,not_or] at unquoted
    have step : lexFrom true cur (c::(more ++ '"'::rest)) = lexFrom true (cur ++ [c]) (more ++ '"'::rest) := by
      simp [lexFrom,Ne.symm unquoted.1]
    rw [List.cons_append,step,ih unquoted.2,List.append_assoc]
    rfl

theorem spells_nil : Spells [] [] := fun _ _ => rfl

theorem spells_atom {a : List Char} (nonempty : a ≠ []) (clean : ∀ c ∈ a, isDelimiter c = false) :
    Spells a [.atom a] := by
  intro rest delimited
  rw [lex,lexFrom_atom clean,lexFrom_flush delimited,List.nil_append,flush,if_neg nonempty]

theorem spells_str {s : List Char} (unquoted : '"' ∉ s) : Spells ('"'::s ++ ['"']) [.str s] := by
  intro rest _
  have quoted := @lexFrom_str s rest unquoted []
  simpa [lex,lexFrom,flush] using quoted

theorem Spells.append (first : Spells text tokens) {c : Char} (space : c.isWhitespace = true)
    (second : Spells text' tokens') : Spells (text ++ c::text') (tokens ++ tokens') := by
  intro rest delimited
  have others : c ≠ '"' ∧ c ≠ '(' ∧ c ≠ ')' := by
    refine ⟨?_,?_,?_⟩ <;> rintro rfl <;> exact absurd space (by decide)
  have skipped : lex (c::(text' ++ rest)) = lex (text' ++ rest) := by
    simp [lex,lexFrom,others,space,flush]
  have here := first (c::(text' ++ rest)) (fun d head => by
    obtain rfl := Option.some.inj head
    simp [isDelimiter,space])
  rw [List.append_assoc,List.append_assoc,List.cons_append,here,skipped,second rest delimited]

theorem Spells.parens (inner : Spells text tokens) :
    Spells ('('::text ++ [')']) (.opening::tokens ++ [.closing]) := by
  intro rest delimited
  have here := inner (')'::rest) (fun d head => by
    obtain rfl := Option.some.inj head
    rfl)
  have opened : lex ('('::(text ++ ')'::rest)) = .opening::lex (text ++ ')'::rest) := by simp [lex,lexFrom,flush]
  have closed : lex (')'::rest) = .closing::lex rest := by simp [lex,lexFrom,flush]
  simp [opened,here,closed]

end WarpLoop.Lib.Tokens
