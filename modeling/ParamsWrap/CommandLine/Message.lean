import ParamsWrap.CommandLine.Request
import ParamsWrap.CommandLine.Styled

/-!
# Help, version and usage errors

The texts that the command line is answered with when no file is wrapped.
-/

namespace ParamsWrap

open Phrase

def programName : String := "exec-params-fix"

def programVersion : String := "0.1.0"

/-- The usage line, which names the flag that it is about. -/
def usage (flag? : Option Flag) : Styled :=
  [heading "Usage:", plain " ", bold programName] ++
    (flag?.toList.flatMap fun f => [plain " ", bold f.spelling]) ++ [plain " <FILE>"]

def Flag.answer : Flag → Styled
  | .version => [plain (programName ++ " " ++ programVersion ++ "\n")]
  | .help =>
    [plain "Wrap tx.exec arguments in pqxx::params, in place\n\n"] ++ usage none ++
    [plain "\n\n", heading "Arguments:",
      plain "\n  <FILE>  Source file to rewrite\n\n", heading "Options:",
      plain "\n  ", bold "-h", plain ", ", bold "--help", plain "     Print help",
      plain "\n  ", bold "-V", plain ", ", bold "--version", plain "  Print version\n"]

namespace Misuse

def complaint : Misuse → Styled
  | fileMissing =>
    [plain "the following required arguments were not provided:\n  ", green "<FILE>"]
  | fileEmpty =>
    [plain "a value is required for '", yellow "<FILE>", plain "' but none was supplied"]
  | surplus arg | unknownFlag arg | misspelt arg _ =>
    [plain "unexpected argument '", yellow arg, plain "' found"]
  | flagWithValue f value =>
    [plain "unexpected value '", yellow value, plain "' for '", bold f.spelling,
      plain "' found; no more were expected"]

def tip : Misuse → Styled
  | unknownFlag arg =>
    [plain "\n\n  ", green "tip:", plain " to pass '", yellow arg, plain "' as a value, use '",
      green ("-- " ++ arg), plain "'"]
  | misspelt _ f =>
    [plain "\n\n  ", green "tip:", plain " a similar argument exists: '", green f.spelling,
      plain "'"]
  | _ => []

/-- How the program is used, except where the file name is empty. -/
def reminder : Misuse → Styled
  | fileEmpty => []
  | misspelt _ f | flagWithValue f _ => plain "\n\n" :: usage (some f)
  | _ => plain "\n\n" :: usage none

def message (m : Misuse) : Styled :=
  [alarm "error:", plain " "] ++ m.complaint ++ m.tip ++ m.reminder ++
    [plain "\n\nFor more information, try '", bold Flag.help.spelling, plain "'.\n"]

end Misuse

end ParamsWrap
