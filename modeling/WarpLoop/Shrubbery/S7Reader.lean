import WarpLoop.Shrubbery.Scan

/-! The s7 shrubbery reader (flow-toolchain/riscv-guests/shrubbery/shrubbery-to-scheme.scm). -/
namespace WarpLoop.Shrubbery.S7

def rstrip (t : Text) : Text := t.rdropWhile (fun c => c = ' ' || c = '\t')

def leadingSpaceCount (t : Text) : Nat := (t.takeWhile (· = ' ')).length

def strip (t : Text) : Text := rstrip (t.drop (leadingSpaceCount t))

/-- The errors: `shrubbery-error` with what it is about, and the one of `string-ref`
on an empty string. -/
inductive Error
  | expectedBinding (part : Text)
  | noTrailingColon (header : Text)
  | looksLikeBlockHeader (header : Text)
  | noIndentedBody (header : Text)
  | expectedDefine (header : Text)
  | expectedLet (header : Text)
  | expectedBindingList (header : Text)
  | expectedClause (line : Text)
  | expectedClauseColon (line : Text)
  | unsupportedBlockHeader (header : Text)
  | rawTopLevel (text : Text)
  | unexpectedIndentation
  | outOfRange
deriving DecidableEq, Repr

def stripComment (inStr : Bool) : Text → Text
  | [] => []
  | c::rest =>
    if c = '"' then c::stripComment (!inStr) rest
    else if inStr then c::stripComment inStr rest
    else if c = '/' ∧ rest.head? = some '/' then []
    else c::stripComment inStr rest

/-- The lines that `read-line` gives until the end of the text. -/
def splitLines : Text → List Text
  | [] => []
  | c::rest =>
    if c = '\n' then []::splitLines rest
    else
      match splitLines rest with
      | [] => [[c]]
      | first::others => (c::first)::others

def parseShrubLines : List Text → List Line
  | [] => []
  | raw::rest =>
    let line := rstrip (stripComment false raw)
    let trimmed := strip line
    if trimmed = [] then parseShrubLines rest else (leadingSpaceCount line,trimmed)::parseShrubLines rest

def parseBinding (part : Text) : Except Error (Text × Text) :=
  match splitFirstColonAtDepth0 part with
  | none => throw (.expectedBinding part)
  | some (name,val) => pure (strip name,termToSexpr strip (strip val))

def parseBindingList (inner : Text) : Except Error (List (Text × Text)) := (splitArgs strip inner).mapM parseBinding

def looksLikeBlockKeyword (s : Text) : Bool :=
  s = "cond".toList ||
    ["define ".toList,"let ".toList,"let(".toList,"let*(".toList,"cond".toList].any (fun word => word.isPrefixOf s)

def bindingSexpr (args : List Text) : Except Error Text := do
  let bindings ← if args = [] then pure [] else parseBindingList (join ", ".toList args)
  pure ('('::join [' '] (bindings.map (fun b => '('::b.1 ++ ' '::b.2 ++ [')'])) ++ [')'])

/-- An indented block as it is read, as a body and as the clauses of a `cond`. -/
structure Readings where
  body : Except Error (List Text)
  clauses : Except Error (List Text)

def blockHeaderToSexpr (header : Text) (child : Option Readings) : Except Error Text :=
  match child with
  | none => throw (.noIndentedBody header)
  | some child =>
    if "define ".toList.isPrefixOf header then
      match parseCall strip (header.drop 7) with
      | none => throw (.expectedDefine header)
      | some (name,params) => do
        let body ← child.body
        pure ("(define (".toList ++ name ++ ' '::join [' '] params ++ ") ".toList ++ join [' '] body ++ [')'])
    else if "let ".toList.isPrefixOf header then
      match parseCall strip (strip (header.drop 4)) with
      | none => throw (.expectedLet header)
      | some (name,args) => do
        let bindings ← bindingSexpr args
        let body ← child.body
        pure ("(let ".toList ++ name ++ ' '::bindings ++ ' '::join [' '] body ++ [')'])
    else if "let(".toList.isPrefixOf header ∨ "let*(".toList.isPrefixOf header then
      match parseCall strip header with
      | none => throw (.expectedBindingList header)
      | some (_,args) => do
        let bindings ← bindingSexpr args
        let body ← child.body
        let keyword := if "let*(".toList.isPrefixOf header then "let*".toList else "let".toList
        pure ('('::keyword ++ ' '::bindings ++ ' '::join [' '] body ++ [')'])
    else if header = "cond".toList then do
      let clauses ← child.clauses
      pure ("(cond ".toList ++ join [' '] clauses ++ [')'])
    else throw (.unsupportedBlockHeader header)

/-- The last character is looked at before anything else is. -/
def lineToSexpr (header : Text) (child : Option Readings) : Except Error Text :=
  match header.getLast? with
  | none => throw .outOfRange
  | some last =>
    if last = ':' then blockHeaderToSexpr (strip header.dropLast) child
    else if child.isSome then throw (.noTrailingColon header)
    else if looksLikeBlockKeyword header then throw (.looksLikeBlockHeader header)
    else pure (termToSexpr strip header)

def clauseToSexpr (line : Text) (sub : Option Readings) : Except Error Text :=
  match line.head? with
  | none => throw .outOfRange
  | some first =>
    if first ≠ '|' then throw (.expectedClause line)
    else
      match splitFirstColonAtDepth0 (strip line.tail) with
      | none => throw (.expectedClauseColon line)
      | some (test,result) => do
        let body ← lineToSexpr (strip result) sub
        pure ('('::termToSexpr strip (strip test) ++ ' '::body ++ [')'])

/-- What is read from a block with a reading of its lines. -/
def readBlock (read : Text → Option Readings → Except Error Text) (line : Text) (sub : Option Readings)
    (rest : Except Error (List Text)) : Except Error (List Text) := do
  let first ← read line sub
  let others ← rest
  pure (first::others)

def blockReadings : Forest → Readings
  | .nil => ⟨pure [],pure []⟩
  | .leaf header rest =>
    let later := blockReadings rest
    ⟨readBlock lineToSexpr header none later.body,readBlock clauseToSexpr header none later.clauses⟩
  | .node header child rest =>
    let sub := blockReadings child
    let later := blockReadings rest
    ⟨readBlock lineToSexpr header (some sub) later.body,readBlock clauseToSexpr header (some sub) later.clauses⟩

def blockToBody (block : Forest) : Except Error (List Text) := (blockReadings block).body

def checkNoAvoidableRawToplevel : Forest → Except Error Unit
  | .nil => pure ()
  | .leaf header rest =>
    if (strip header).head? = some '(' then throw (.rawTopLevel (strip header)) else checkNoAvoidableRawToplevel rest
  | .node _ _ rest => checkNoAvoidableRawToplevel rest

def shrubberyToScheme (text : Text) : Except Error Text :=
  match buildBlockTree (parseShrubLines (splitLines text)) 0 with
  | (_,_::_) => throw .unexpectedIndentation
  | (tree,[]) => do
    checkNoAvoidableRawToplevel tree
    let forms ← blockToBody tree
    pure (join ['\n'] forms)

end WarpLoop.Shrubbery.S7
