/-!
# Options of a command

A command line is a list of words. A word `--name` or `-n` is an option, which may want a value: the
rest of its word, or the next word. Any other word is an operand, and so is every word after `--`.

A value is read only when the line goes on past it, so a line with several mistakes is refused for
the first one that is noticed in that order. An unknown option is refused at once.
-/

namespace SharedBits.CommandLine

/-- Why a command line is not run. -/
inductive Refusal where
  | help
  | nothingAsked
  /-- A command lacks an operand that it needs. -/
  | missingOperand
  | unknownCommand
  /-- An option that does not exist, or an operand where none is wanted. -/
  | unknownArgument
  /-- A value that its option cannot read. -/
  | badValue
  /-- An option without its value, or with one that is not among its choices. -/
  | noSuchChoice
  /-- An option given twice that may be given once. -/
  | givenTwice
  /-- A value for an option that takes none. -/
  | surplusValue
  deriving DecidableEq, Repr

/-- The words of a command line, told apart by their first characters. -/
inductive Token where
  /-- The word `--`. -/
  | endOfOptions
  /-- `--name`, or `--name=value`. -/
  | long (name : String) (value : Option String)
  /-- One dash and at least one more character. -/
  | short (letters : List Char)
  | operand (text : String)
  deriving DecidableEq, Repr

/-- Tells a word apart. A single dash is an operand. -/
def Token.ofWord (word : String) : Token :=
  match word.toList with
  | ['-', '-'] => .endOfOptions
  | '-' :: '-' :: rest =>
    match rest.span (· != '=') with
    | (name, []) => .long (String.ofList name) none
    | (name, _ :: value) => .long (String.ofList name) (some (String.ofList value))
  | '-' :: letter :: letters => .short (letter :: letters)
  | _ => .operand word

/-- What an option does to the settings `σ` of its command. -/
inductive Effect (σ : Type) where
  | help
  | flag (turnOn : σ → σ)
  /-- Needs a value, and may be given once. -/
  | value (read : String → σ → Except Refusal σ)
  /-- Needs values between commas, and may be given again for more. -/
  | values (read : String → σ → Except Refusal σ)

structure Switch (σ : Type) where
  long : String
  short : Option Char := none
  effect : Effect σ

/-- The options of a command, and how it reads an operand if it wants any. -/
structure Grammar (σ : Type) where
  switches : List (Switch σ)
  operand : Option (String → σ → Except Refusal σ) := none

/-- Words that have been taken up and are still to be read. -/
inductive Pending (σ : Type) where
  | nothing
  /-- An option that wants a value, and its value if it has come. -/
  | value (switch : Switch σ) (text : Option String)
  /-- Operands in a row. -/
  | operands (texts : List String)

/-- How far a command line has been taken in. -/
structure Progress (σ : Type) where
  settings : σ
  /-- The long names of the options that may not be given again. -/
  given : List String := []
  pending : Pending σ := .nothing

section

variable {σ : Type}

/-- Reads texts one by one into the settings. -/
def readAll (read : String → σ → Except Refusal σ) : List String → σ → Except Refusal σ
  | [], settings => .ok settings
  | text :: texts, settings =>
    match read text settings with
    | .error e => .error e
    | .ok settings => readAll read texts settings

namespace Progress

/-- Notes that an option is given that may be given once. -/
def mark (p : Progress σ) (switch : Switch σ) : Except Refusal (Progress σ) :=
  if p.given.contains switch.long then .error .givenTwice
  else .ok { p with given := switch.long :: p.given }

def give (p : Progress σ) (switch : Switch σ) (text : String) : Except Refusal (Progress σ) :=
  match switch.effect with
  | .value read => do
    let p ← p.mark switch
    return { p with settings := ← read text p.settings }
  | .values read => return { p with settings := ← readAll read (text.splitOn ",") p.settings }
  | .flag _ => .error .surplusValue
  | .help => .error .surplusValue

def settle (p : Progress σ) (grammar : Grammar σ) : Except Refusal (Progress σ) :=
  let rest := { p with pending := .nothing }
  match p.pending with
  | .nothing => .ok rest
  | .value _ none => .error .noSuchChoice
  | .value switch (some text) => rest.give switch text
  | .operands texts =>
    match grammar.operand with
    | none => .error .unknownArgument
    | some read => return { rest with settings := ← readAll read texts rest.settings }

/-- Takes up an option. `attached` is the value that stands in the same word. -/
def takeSwitch (p : Progress σ) (grammar : Grammar σ) (switch : Switch σ)
    (attached : Option String) : Except Refusal (Progress σ) :=
  match switch.effect, attached with
  | .help, none => do
    let _ ← p.settle grammar
    .error .help
  | .help, some _ => .error .surplusValue
  | .flag turnOn, none => do
    let p ← (← p.settle grammar).mark switch
    return { p with settings := turnOn p.settings }
  | .flag _, some _ => .error .surplusValue
  | _, some text => do (← p.settle grammar).give switch text
  | _, none => do return { ← p.settle grammar with pending := .value switch none }

def takeOperand (p : Progress σ) (grammar : Grammar σ) (text : String) :
    Except Refusal (Progress σ) :=
  match grammar.operand, p.pending with
  | none, _ => .error .unknownArgument
  | some _, .operands texts => .ok { p with pending := .operands (texts ++ [text]) }
  | some _, _ => do return { ← p.settle grammar with pending := .operands [text] }

/-- Takes up the letters behind one dash. A letter whose option wants a value takes the rest of the
word for it, without an equals sign in front. -/
def takeLetters (p : Progress σ) (grammar : Grammar σ) : List Char → Except Refusal (Progress σ)
  | [] => .ok p
  | letter :: letters =>
    match grammar.switches.find? fun switch => switch.short == some letter with
    | none => .error .unknownArgument
    | some switch =>
      match switch.effect, letters with
      | .help, _ => p.takeSwitch grammar switch none
      | .flag _, _ => do (← p.takeSwitch grammar switch none).takeLetters grammar letters
      | _, [] => p.takeSwitch grammar switch none
      | _, '=' :: text => p.takeSwitch grammar switch (some (String.ofList text))
      | _, text => p.takeSwitch grammar switch (some (String.ofList text))

/-- Takes up a word that is not known to be an operand. -/
def takeWord (p : Progress σ) (grammar : Grammar σ) (word : String) :
    Except Refusal (Progress σ) :=
  match Token.ofWord word with
  | .endOfOptions => .ok p
  | .long name attached =>
    match grammar.switches.find? fun switch => switch.long == name with
    | none => .error .unknownArgument
    | some switch => p.takeSwitch grammar switch attached
  | .short letters => p.takeLetters grammar letters
  | .operand text =>
    match p.pending with
    | .value switch none => .ok { p with pending := .value switch (some text) }
    | _ => p.takeOperand grammar text

end Progress

/-- Takes up words that are operands, whatever they look like. -/
def takeOperands (grammar : Grammar σ) (p : Progress σ) :
    List String → Except Refusal (Progress σ)
  | [] => .ok p
  | word :: words => do takeOperands grammar (← p.takeOperand grammar word) words

def takeWords (grammar : Grammar σ) (p : Progress σ) : List String → Except Refusal (Progress σ)
  | [] => .ok p
  | word :: words =>
    if word = "--" then takeOperands grammar p words
    else do takeWords grammar (← p.takeWord grammar word) words

/-- The settings that the words of a command make out of `settings`. -/
def Grammar.read (grammar : Grammar σ) (settings : σ) (words : List String) : Except Refusal σ := do
  let p ← takeWords grammar { settings := settings } words
  return (← p.settle grammar).settings

end

end SharedBits.CommandLine
