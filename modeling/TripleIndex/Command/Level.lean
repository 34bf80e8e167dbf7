import TripleIndex.Command.Help

/-! # Reading words

A level of a command line takes options and, in order, a number of places. Words that begin with a
dash name options; the word `--` ends them. An option of one character may have its value attached
to it, one of several characters behind an equals sign; any other value is the next word, and does
not begin with a dash.

A value is taken up as soon as the next option or place comes, or the words end. The first fault
decides, and so does a call for help.
-/

namespace TripleIndex.Command

/-- Something that a level takes into a draft `δ`: the option it is named by, if it is no place,
whether the draft has it, and how a text becomes part of the draft, if it can. -/
structure Parameter (δ : Type) where
  long : String := ""
  short : Option Char := none
  isGiven : δ → Bool
  take : String → Option (δ → δ)

namespace Parameter

variable {δ α : Type}

/-- A parameter that is kept in one place of the draft. -/
def kept (long : String) (short : Option Char) (read : String → Option α) (get : δ → Option α)
    (set : α → δ → δ) : Parameter δ where
  long := long
  short := short
  isGiven d := (get d).isSome
  take text := (read text).map set

end Parameter

/-- A path is not empty. -/
def readPath (text : String) : Option String := if text = "" then none else some text

/-- A count has digits only, after a plus or not, and is below 2^64. -/
def readCount (text : String) : Option UInt64 :=
  let digits := match text.toList with
    | '+' :: cs => cs
    | cs => cs
  let value := Nat.ofDigitChars 10 digits 0
  if digits.isEmpty || !digits.all Char.isDigit || UInt64.size ≤ value then none
  else some (UInt64.ofNat value)

structure Level (δ : Type) where
  page : Page
  options : List (Parameter δ) := []
  places : List (Parameter δ) := []
  /-- Names of the commands that words may go on with. -/
  commands : List String := []

/-! ## Words -/

inductive Word where
  | plain
  /-- Two dashes and nothing else. -/
  | escape
  | long (name : String) (value : Option String)
  | short (name : Char) (rest : List Char)
deriving DecidableEq, Repr

namespace Word

/-- Whatever stands behind the first equals sign is attached to the name. -/
def cutEquals (cs : List Char) : Word :=
  let name := String.ofList (cs.takeWhile (· ≠ '='))
  match cs.dropWhile (· ≠ '=') with
  | [] => .long name none
  | _ :: value => .long name (some (String.ofList value))

def ofText : List Char → Word
  | ['-', '-'] => .escape
  | '-' :: '-' :: cs => cutEquals cs
  | '-' :: c :: cs => .short c cs
  | _ => .plain

def ofString (s : String) : Word := ofText s.toList

/-- The value attached to an option of one character; an equals sign in front does not count. -/
def attached? : List Char → Option String
  | [] => none
  | '=' :: cs => some (String.ofList cs)
  | cs => some (String.ofList cs)

def asksHelp : Word → Bool
  | .long "help" none => true
  | .short 'h' _ => true
  | _ => false

end Word

/-! ## Levels -/

/-- Why reading ends early. -/
inductive Stop where
  | misuse
  | help (page : Page)
deriving DecidableEq, Repr

/-- What the next word may be. -/
inductive Mode (δ : Type) where
  | anything
  /-- The value of an option. -/
  | value (option : Parameter δ)
  /-- A place, whatever the word looks like. -/
  | place

/-- A level under way: what has been taken up, the parameter that waits for it with its text, and
the places that are still free. -/
structure Reading (δ : Type) where
  draft : δ
  pending : Option (Parameter δ × String) := none
  places : List (Parameter δ) := []
  mode : Mode δ := .anything

namespace Reading

variable {δ : Type}

/-- Takes up what waits. Nothing may be given twice. -/
def settle (r : Reading δ) : Except Stop (Reading δ) :=
  match r.pending with
  | none => .ok r
  | some (p, text) =>
    if p.isGiven r.draft then .error .misuse
    else
      match p.take text with
      | none => .error .misuse
      | some put => .ok { r with draft := put r.draft, pending := none }

/-- Takes up what waits, and lets a parameter wait. -/
def expect (r : Reading δ) (p : Parameter δ) (text : String) : Except Stop (Reading δ) :=
  match r.settle with
  | .error s => .error s
  | .ok r => .ok { r with pending := some (p, text) }

/-- Takes up what waits, and lets an option wait for its value. -/
def awaitValue (r : Reading δ) (p : Parameter δ) : Except Stop (Reading δ) :=
  match r.settle with
  | .error s => .error s
  | .ok r => .ok { r with mode := .value p }

/-- Puts a word into the next place. -/
def fill (r : Reading δ) (word : String) : Except Stop (Reading δ) :=
  match r.places with
  | [] => .error .misuse
  | p :: places => { r with places := places }.expect p word

def takesCommand (r : Reading δ) : Bool :=
  match r.mode with
  | .anything => true
  | .value _ | .place => false

/-- What has been taken up when the words end. -/
def finish (r : Reading δ) : Except Stop δ :=
  match r.mode with
  | .value _ => .error .misuse
  | .anything | .place => r.settle.map (·.draft)

end Reading

namespace Level

variable {δ : Type}

/-- The option that a word names, with the value attached to it. -/
def option? (l : Level δ) : Word → Option (Parameter δ × Option String)
  | .long name value => (l.options.find? fun p => p.long = name).map (·, value)
  | .short name rest =>
    (l.options.find? fun p => p.short = some name).map (·, Word.attached? rest)
  | .plain | .escape => none

/-- Reads a word that names an option. -/
def stepOption (l : Level δ) (r : Reading δ) (word : Word) : Except Stop (Reading δ) :=
  match l.option? word with
  | none => .error .misuse
  | some (p, none) => r.awaitValue p
  | some (p, some value) =>
    match r.expect p value with
    | .error s => .error s
    | .ok r => r.settle

/-- Reads one word. -/
def step (l : Level δ) (r : Reading δ) (word : String) : Except Stop (Reading δ) :=
  match r.mode with
  | .place => r.fill word
  | .value p =>
    if Word.ofString word = .plain then
      .ok { r with pending := some (p, word), mode := .anything }
    else .error .misuse
  | .anything =>
    match Word.ofString word with
    | .plain => r.fill word
    | .escape => .ok { r with mode := .place }
    | w =>
      if w.asksHelp then
        match r.settle with
        | .error s => .error s
        | .ok _ => .error (.help l.page)
      else l.stepOption r w

/-- Reads words up to the command that they go on with, if there is one. -/
def read (l : Level δ) (r : Reading δ) :
    List String → Except Stop (Reading δ × Option (String × List String))
  | [] => .ok (r, none)
  | word :: rest =>
    if r.takesCommand && l.commands.contains word then .ok (r, some (word, rest))
    else
      match l.step r word with
      | .error s => .error s
      | .ok r => l.read r rest

/-- Reads all words of a level that no command goes on with. -/
def readAll (l : Level δ) (start : δ) (words : List String) : Except Stop δ :=
  match l.read { draft := start, places := l.places } words with
  | .error s => .error s
  | .ok (r, _) => r.finish

end Level

end TripleIndex.Command
