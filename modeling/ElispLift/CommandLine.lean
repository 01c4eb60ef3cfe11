import ElispLift.Decompile
import ElispLift.Text.Quoted

/-!
# The command line

`decompile file PATH` with options. Arguments that are not understood, repeated or at odds with each
other are rejected as a whole, before any file is read.
-/

namespace ElispLift.CommandLine

/-- The options given so far. -/
structure Flags where
  verbose : Bool
  assembly : Bool
  blocks : Bool
  grammar : Bool
  tree : Option TreeDump
  treeAfter : Bool
  treeFull : Bool
  path : Option String
deriving DecidableEq, Repr

inductive Command where
  | version
  | decompileFile (path : String) (options : Options)
deriving DecidableEq, Repr

namespace Flags

def none : Flags := ⟨false, false, false, false, Option.none, false, false, Option.none⟩

/-- Set a flag that was not set. -/
def once (isSet : Bool) (f : Flags) : Option Flags := if isSet then Option.none else some f

def setVerbose (f : Flags) : Option Flags := once f.verbose { f with verbose := true }

def setAssembly (f : Flags) : Option Flags := once f.assembly { f with assembly := true }

def setBlocks (f : Flags) : Option Flags := once f.blocks { f with blocks := true }

def setGrammar (f : Flags) : Option Flags := once f.grammar { f with grammar := true }

def setTreeAfter (f : Flags) : Option Flags := once f.treeAfter { f with treeAfter := true }

def setTreeFull (f : Flags) : Option Flags := once f.treeFull { f with treeFull := true }

def treeDump? (word : String) : Option TreeDump :=
  if word = "none" then some .none
  else if word = "before" then some .before
  else if word = "after" then some .after
  else if word = "full" then some .full
  else Option.none

def setTree (f : Flags) (word : String) : Option Flags := do
  once f.tree.isSome { f with tree := some (← treeDump? word) }

/-- A path, which is not empty. -/
def setPath (f : Flags) (path : String) : Option Flags :=
  once (f.path.isSome || path.isEmpty) { f with path := some path }

/-- One letter of a group of short options. -/
def setShort (f : Flags) : Char → Option Flags
  | 'a' => f.setAssembly
  | 'g' => f.setGrammar
  | 't' => f.setTreeAfter
  | 'T' => f.setTreeFull
  | _ => Option.none

def setShorts (f : Flags) (letters : List Char) : Option Flags := letters.foldlM setShort f

def setPaths (f : Flags) (paths : List String) : Option Flags := paths.foldlM setPath f

/-- Options and the path in any order. After `--` there are no options, and a hyphen alone is not
one. -/
def read (f : Flags) : List String → Option Flags
  | [] => some f
  | "--" :: rest => f.setPaths rest
  | "--verbose" :: rest => do read (← f.setVerbose) rest
  | "--assembly" :: rest => do read (← f.setAssembly) rest
  | "--blocks" :: rest => do read (← f.setBlocks) rest
  | "--grammar" :: rest => do read (← f.setGrammar) rest
  | ["--tree"] => Option.none
  | "--tree" :: word :: rest => do read (← f.setTree word) rest
  | word :: rest => do
    match word.toList, Text.after? "--tree=".toList word.toList with
    | _, some value => read (← f.setTree (String.ofList value)) rest
    | '-' :: '-' :: _, Option.none => Option.none
    | '-' :: c :: letters, Option.none => read (← f.setShorts (c :: letters)) rest
    | _, Option.none => read (← f.setPath word) rest

/-- The short options for trees exclude each other and the long one. -/
def agree (f : Flags) : Bool :=
  !(f.treeAfter && (f.tree.isSome || f.treeFull)) && !(f.treeFull && f.tree.isSome)

def options (f : Flags) : Options where
  mode := if f.assembly then .assembly else .source
  showBlocks := f.blocks
  showGrammar := f.grammar
  tree := if f.treeFull then .full else if f.treeAfter then .after else f.tree.getD .none

def command? (f : Flags) : Option Command :=
  if f.agree then f.path.map fun path => .decompileFile path f.options else Option.none

end Flags

/-- Whether a word is a group of short options that starts with the one for the version. -/
def asksVersion (word : String) : Bool := Text.startsWith "-V".toList word.toList

/-- The words up to the one that takes the other arguments. Once the version is asked for, the words
behind do not matter. -/
def Command.ofWords? (f : Flags) : List String → Option Command
  | [] => none
  | "--verbose" :: rest => do ofWords? (← f.setVerbose) rest
  | "--version" :: _ => some .version
  | "decompile" :: rest => decompileWords .none rest
  | word :: _ => if asksVersion word then some .version else none
where
  decompileWords (f : Flags) : List String → Option Command
    | "--verbose" :: rest => do decompileWords (← f.setVerbose) rest
    | "file" :: rest => do (← Flags.none.read rest).command?
    | _ => none

def Command.ofArguments? (args : List String) : Option Command := Command.ofWords? .none args

/-- Why a file has no text. -/
inductive ReadFailure where
  | noSuchFile | permissionDenied | notDirectory | isDirectory | nameTooLong | notText
deriving DecidableEq, Repr

def ReadFailure.message : ReadFailure → String
  | noSuchFile => "No such file or directory (os error 2)"
  | permissionDenied => "Permission denied (os error 13)"
  | notDirectory => "Not a directory (os error 20)"
  | isDirectory => "Is a directory (os error 21)"
  | nameTooLong => "File name too long (os error 36)"
  | notText => "stream did not contain valid UTF-8"

/-- What a run of the program leaves: an exit code, and what it printed. -/
structure Outcome where
  code : Nat
  stdout : String
  stderr : List String
deriving DecidableEq, Repr

def versionText : String := "lapdec 0.1.0\n"

/-- The outcome for a file, of which only the listing in it matters, if it can be read. -/
def decompileListing (path : String) (options : Options) (listing : Except ReadFailure String) :
    Outcome :=
  match listing with
  | .error failure =>
    ⟨1, "", ["failed to read " ++ Text.quoted path ++ ": " ++ failure.message]⟩
  | .ok text =>
    match decompile options text with
    | .error e => ⟨1, "", ["decompile error: " ++ e.message]⟩
    | .ok result =>
      match result.failures.length with
      | 0 => ⟨0, result.text, []⟩
      | n => ⟨1, result.text, [toString n ++ " function(s) failed to decompile"]⟩

/-- Rejected arguments print nothing but how the program is used. -/
def rejected : Outcome := ⟨2, "", ["usage: decompile file PATH"]⟩

end ElispLift.CommandLine
