import ParamsWrap.CommandLine.Likeness
import ParamsWrap.FileTree.Path

/-!
# What a command line asks for

The arguments are read from left to right. The first flag that is known decides, and one that is not
known is an error; what is no flag is the file. Behind `--` every argument is a file name. A command
line that is read to its end asks for the one file that it names.
-/

namespace ParamsWrap

inductive Flag where
  | help
  | version
deriving DecidableEq

namespace Flag

def name : Flag → Text
  | help => ['h', 'e', 'l', 'p']
  | version => ['v', 'e', 'r', 's', 'i', 'o', 'n']

def spelling (f : Flag) : String :=
  "--" ++ String.ofList f.name

def ofName? (name : Bytes) : Option Flag :=
  if name = Text.encode help.name then some help
  else if name = Text.encode version.name then some version
  else none

def ofLetter? : Char → Option Flag
  | 'h' => some help
  | 'V' => some version
  | _ => none

/-- The flag whose name is most like the word, if one is close to it. -/
def near? (word : Text) : Option Flag :=
  let toHelp := Likeness.ofWords word help.name
  let toVersion := Likeness.ofWords word version.name
  if Likeness.isClose toVersion && toHelp ≤ toVersion then some version
  else if Likeness.isClose toHelp then some help
  else none

end Flag

/-- An argument that does not stand behind `--`. -/
inductive Argument where
  | file (p : Path)
  | separator
  | flag (f : Flag)
  | flagWithValue (f : Flag) (value : String)
  | unknownLong (word : Text)
  | unknownShort (letter : String)
deriving DecidableEq

namespace Argument

def dash : UInt8 := 0x2D

def equals : UInt8 := 0x3D

/-- Reads what stands behind two dashes: the name of a flag, up to an equals sign. -/
def ofLong (word : Bytes) : Argument :=
  let name := word.takeWhile (· ≠ equals)
  match Flag.ofName? name, word.dropWhile (· ≠ equals) with
  | none, _ => unknownLong (Lossy.decode name)
  | some f, [] => flag f
  | some f, _ :: value => flagWithValue f (String.ofList (Lossy.decode value))

/-- Reads what stands behind one dash: letters that are flags, of which the first decides. -/
def ofShort (b : UInt8) (rest : Bytes) : Argument :=
  match (Lossy.next b rest).1 with
  | none => unknownShort ("-" ++ String.ofList (Lossy.decode (b :: rest)))
  | some c =>
    match Flag.ofLetter? c with
    | none => unknownShort ("-" ++ c.toString)
    | some f => flag f

/-- A lone dash is a file name. -/
def ofBytes : Bytes → Argument
  | [] => file ⟨[]⟩
  | [b] => file ⟨[b]⟩
  | b :: c :: rest =>
    if b ≠ dash then file ⟨b :: c :: rest⟩
    else if c ≠ dash then ofShort c rest
    else if rest = [] then separator
    else ofLong rest

end Argument

/-- What is wrong with a command line. -/
inductive Misuse where
  | fileMissing
  | fileEmpty
  | surplus (arg : String)
  | unknownFlag (arg : String)
  | misspelt (arg : String) (f : Flag)
  | flagWithValue (f : Flag) (value : String)
deriving DecidableEq

inductive Request where
  | inform (f : Flag)
  | wrap (p : Path)
  | misuse (m : Misuse)
deriving DecidableEq

namespace Request

/-- The request for the file that was named, if any. -/
def ofFile? : Option Path → Request
  | none => misuse .fileMissing
  | some p => if p.bytes = [] then misuse .fileEmpty else wrap p

/-- Reads arguments that can only be files. -/
def ofFiles (file? : Option Path) : List Bytes → Request
  | [] => ofFile? file?
  | arg :: rest =>
    match file? with
    | none => ofFiles (some ⟨arg⟩) rest
    | some _ => misuse (.surplus (Path.mk arg).display)

/-- Reads arguments behind those that gave `file?`. A flag that is known takes effect only behind a
file name that is not empty. -/
def ofArguments (file? : Option Path) : List Bytes → Request
  | [] => ofFile? file?
  | arg :: rest =>
    match Argument.ofBytes arg with
    | .separator => ofFiles file? rest
    | .flag f => if file? = some ⟨[]⟩ then misuse .fileEmpty else inform f
    | .flagWithValue f value => misuse (.flagWithValue f value)
    | .unknownShort letter => misuse (.unknownFlag letter)
    | .unknownLong word =>
      let arg := "--" ++ String.ofList word
      match Flag.near? word with
      | none => misuse (.unknownFlag arg)
      | some f => misuse (.misspelt arg f)
    | .file p =>
      match file? with
      | none => ofArguments (some p) rest
      | some _ => misuse (.surplus p.display)

def read (args : List Bytes) : Request :=
  ofArguments none args

end Request

end ParamsWrap
