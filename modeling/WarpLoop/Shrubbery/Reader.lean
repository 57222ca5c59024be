import WarpLoop.Shrubbery.Scan

/-! The Python shrubbery reader (flow-toolchain/riscv-guests/shrubbery/shrubbery_to_scheme.py). -/
namespace WarpLoop.Shrubbery.Python

/-- Python's whitespace. -/
def isSpace (c : Char) : Bool :=
  [9,10,11,12,13,28,29,30,31,32,133,160,5760,8192,8193,8194,8195,8196,8197,8198,8199,8200,8201,8202,8232,8233,8239,
    8287,12288].contains c.toNat

def strip (t : Text) : Text := stripWith isSpace isSpace t

def rstrip (t : Text) : Text := t.rdropWhile isSpace

/-- The errors, one for each place that raises. -/
inductive Error
  | tabsInIndentation (raw : Text)
  | unexpectedIndentation (line : Line)
  | rawTopLevel (text : Text)
  | noTrailingColon (header : Text)
  | looksLikeBlockHeader (header : Text)
  | noIndentedBody (header : Text)
  | expectedDefine (header : Text)
  | expectedLet (header : Text)
  | noBindingList (header : Text)
  | notUnpackable
  | expectedBinding (part : Text)
  | expectedClause (line : Text)
  | expectedClauseColon (line : Text)
  | unsupportedBlockHeader (header : Text)
deriving DecidableEq, Repr

def stripComment (inStr : Bool) : Text → Text
  | [] => []
  | c::rest =>
    if c = '"' then c::stripComment (!inStr) rest
    else if c = '/' ∧ rest.head? = some '/' ∧ inStr = false then []
    else c::stripComment inStr rest

def indentOf (line : Text) : Nat := line.length - (line.dropWhile (· = ' ')).length

/-- `text.split('\n')`. -/
def splitLines : Text → List Text
  | [] => [[]]
  | c::rest =>
    if c = '\n' then []::splitLines rest
    else
      match splitLines rest with
      | [] => [[c]]
      | first::others => (c::first)::others

/-- The indentation and the content of the non-blank lines. -/
def parseLines : List Text → Except Error (List Line)
  | [] => pure []
  | raw::rest =>
    let line := rstrip (stripComment false raw)
    if strip line = [] then parseLines rest
    else if '\t' ∈ line.take (indentOf line) then throw (.tabsInIndentation raw)
    else do
      let lines ← parseLines rest
      pure ((indentOf line,strip line)::lines)

def parseBinding (part : Text) : Except Error (Text × Text) :=
  if ':' ∉ part then throw (.expectedBinding part)
  else
    let name := part.takeWhile (· ≠ ':')
    let val := (part.dropWhile (· ≠ ':')).tail
    pure (strip name,termToSexpr strip (strip val))

def parseBindingList (inner : Text) : Except Error (List (Text × Text)) := (splitArgs strip inner).mapM parseBinding

/-- A header that begins like a block but is not one. -/
def isBlockKeyword (header : Text) : Bool :=
  ["define ".toList,"let ".toList,"let(".toList,"let*(".toList,"cond".toList].any (fun word => word.isPrefixOf header)

def bindingSexpr (args : List Text) : Except Error Text := do
  let bindings ← if args = [] then pure [] else parseBindingList (join [','] args)
  pure ('('::join [' '] (bindings.map (fun b => '('::b.1 ++ ' '::b.2 ++ [')'])) ++ [')'])

/-- An indented block as it is read, as a body and as the clauses of a `cond`; a
header uses the one that it asks for. -/
structure Readings where
  body : Except Error (List Text)
  clauses : Except Error (List Text)

def blockHeaderToSexpr (header : Text) (child : Option Readings) : Except Error Text :=
  match child with
  | none => throw (.noIndentedBody header)
  | some child =>
    if "define ".toList.isPrefixOf header then
      match parseCall strip (header.drop 7) with
      | none => throw (.expectedDefine header)
      | some (name,params) => do
        let body ← child.body
        pure ("(define (".toList ++ name ++ ' '::join [' '] params ++ ") ".toList ++ join [' '] body ++ [')'])
    else if "let ".toList.isPrefixOf header then
      match parseCall strip (strip (header.drop 4)) with
      | none => throw (.expectedLet header)
      | some (name,args) => do
        let bindings ← bindingSexpr args
        let body ← child.body
        pure ("(let ".toList ++ name ++ ' '::bindings ++ ' '::join [' '] body ++ [')'])
    else if header = "let".toList ∨ header = "let*".toList then throw (.noBindingList header)
    else if "let(".toList.isPrefixOf header ∨ "let*(".toList.isPrefixOf header then
      let keyword := if "let*(".toList.isPrefixOf header then "let*".toList else "let".toList
      match parseCall strip header with
      | none => throw .notUnpackable
      | some (_,args) => do
        let bindings ← bindingSexpr args
        let body ← child.body
        pure ('('::keyword ++ ' '::bindings ++ ' '::join [' '] body ++ [')'])
    else if header = "cond".toList then do
      let clauses ← child.clauses
      pure ("(cond ".toList ++ join [' '] clauses ++ [')'])
    else throw (.unsupportedBlockHeader header)

def lineToSexpr (header : Text) (child : Option Readings) : Except Error Text :=
  if header.getLast? = some ':' then blockHeaderToSexpr (strip header.dropLast) child
  else if child.isSome then throw (.noTrailingColon header)
  else if isBlockKeyword header ∨ header = "cond".toList then throw (.looksLikeBlockHeader header)
  else pure (termToSexpr strip header)

def clauseToSexpr (line : Text) (sub : Option Readings) : Except Error Text :=
  if line.head? ≠ some '|' then throw (.expectedClause line)
  else
    match splitFirstColonAtDepth0 (strip line.tail) with
    | none => throw (.expectedClauseColon line)
    | some (test,result) => do
      let body ← lineToSexpr (strip result) sub
      pure ('('::termToSexpr strip (strip test) ++ ' '::body ++ [')'])

/-- What is read from a block with a reading of its lines. -/
def readBlock (read : Text → Option Readings → Except Error Text) (line : Text) (sub : Option Readings)
    (rest : Except Error (List Text)) : Except Error (List Text) := do
  let first ← read line sub
  let others ← rest
  pure (first::others)

def blockReadings : Forest → Readings
  | .nil => ⟨pure [],pure []⟩
  | .leaf header rest =>
    let later := blockReadings rest
    ⟨readBlock lineToSexpr header none later.body,readBlock clauseToSexpr header none later.clauses⟩
  | .node header child rest =>
    let sub := blockReadings child
    let later := blockReadings rest
    ⟨readBlock lineToSexpr header (some sub) later.body,readBlock clauseToSexpr header (some sub) later.clauses⟩

def blockToBody (block : Forest) : Except Error (List Text) := (blockReadings block).body

/-- Rejects a top-level line that is a raw parenthesised statement. -/
def checkNoAvoidableRawToplevel : Forest → Except Error Unit
  | .nil => pure ()
  | .leaf header rest =>
    if (strip header).head? = some '(' then throw (.rawTopLevel (strip header)) else checkNoAvoidableRawToplevel rest
  | .node _ _ rest => checkNoAvoidableRawToplevel rest

def shrubberyToScheme (text : Text) : Except Error Text := do
  let lines ← parseLines (splitLines text)
  match buildBlockTree lines 0 with
  | (_,line::_) => throw (.unexpectedIndentation line)
  | (tree,[]) => do
    checkNoAvoidableRawToplevel tree
    let forms ← blockToBody tree
    pure (join ['\n'] forms ++ ['\n'])

end WarpLoop.Shrubbery.Python
