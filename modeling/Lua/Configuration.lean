/-
Configuration of an instance.

Limits, the path modules are searched on and the random seed are read from named settings
such as environment variables.  A setting that belongs to this version of the language, whose
name ends in `_5_4`, goes before the plain one.

* `Configuration.read` — the configuration that a lookup of settings gives;
* `Configuration.resolvedModulePath` — the module path with the default path put in for the
  first `;;`.
-/
import Lua.Number.Numeral

namespace Lua

/-- Limits and settings of an instance. -/
structure Configuration where
  /-- The greatest call depth of a thread. -/
  maxCallDepth : Nat := 200
  /-- The greatest number of nested resumes. -/
  maxResumeDepth : Nat := 200
  /-- The greatest nesting of native calls, host calls and resumes over all threads. -/
  maxHostDepth : Nat := 200
  modulePath : Option String := none
  randomSeed : Option Nat := none
  deriving DecidableEq, Repr

/-- What a lookup finds under a name. -/
inductive Setting where
  | absent
  | text (s : String)
  | notUnicode
  deriving DecidableEq, Repr

inductive ConfigurationError where
  | notUnicode (name : String)
  | invalidNumber (name value : String)
  deriving DecidableEq, Repr

def ConfigurationError.message : ConfigurationError → String
  | .notUnicode name => s!"environment variable {name} is not valid unicode"
  | .invalidNumber name value => s!"environment variable {name} has invalid value '{value}'"

/-- The name of a setting that belongs to this version of the language. -/
def versionedName (base : String) : String := base ++ "_5_4"

/-- The version of the language. -/
def versionText : String := "Lua 5.4"

/-- Where modules are searched by default. -/
def defaultModulePath : String :=
  "/usr/local/share/lua/5.4/?.lua;/usr/local/share/lua/5.4/?/init.lua;./?.lua;./?/init.lua"

namespace Configuration

/-- The text of a setting and the name it was found under, the versioned name first. -/
def find (lookup : String → Setting) (base : String) :
    Except ConfigurationError (Option (String × String)) :=
  match lookup (versionedName base) with
  | .text s => .ok (some (versionedName base, s))
  | .notUnicode => .error (.notUnicode (versionedName base))
  | .absent => match lookup base with
    | .text s => .ok (some (base, s))
    | .notUnicode => .error (.notUnicode base)
    | .absent => .ok none

/-- An unsigned 64-bit number, with an optional plus sign. -/
def natural? (s : List Char) : Option Nat := do
  let ds := match s with
    | '+' :: ds => ds
    | ds => ds
  let n ← Numeral.natural? 10 ds
  if n < UInt64.size then some n else none

/-- The number of a setting, blanks around it aside. -/
def readNumber (lookup : String → Setting) (base : String) :
    Except ConfigurationError (Option Nat) := do
  match ← find lookup base with
  | none => pure none
  | some (name, s) => match natural? (Text.trim s.toList) with
    | some n => pure (some n)
    | none => .error (.invalidNumber name s)

/-- The configuration that a lookup of settings gives; what is absent keeps its default. -/
def read (lookup : String → Setting) : Except ConfigurationError Configuration := do
  let defaults : Configuration := {}
  let calls ← readNumber lookup "LUA_MAXCALLS"
  let resumes ← readNumber lookup "LUA_MAXRESUMES"
  let host ← readNumber lookup "LUA_MAXCCALLS"
  let path ← find lookup "LUA_PATH"
  let seed ← readNumber lookup "LUA_SEED"
  pure {
    maxCallDepth := calls.getD defaults.maxCallDepth
    maxResumeDepth := resumes.getD defaults.maxResumeDepth
    maxHostDepth := host.getD defaults.maxHostDepth
    modulePath := path.map (·.2)
    randomSeed := seed }

/-- A text around the first `;;` in it. -/
def splitAtDouble? : List Char → Option (List Char × List Char)
  | ';' :: ';' :: rest => some ([], rest)
  | c :: rest => (splitAtDouble? rest).map fun (front, back) => (c :: front, back)
  | [] => none

/-- The module path with the default path in place of the first `;;`, and without separators
at its ends if there was one. -/
def resolvedModulePath (c : Configuration) : String :=
  match c.modulePath with
  | none => defaultModulePath
  | some path => match splitAtDouble? path.toList with
    | none => path
    | some (front, back) =>
      let expanded := front ++ ';' :: defaultModulePath.toList ++ ';' :: back
      let isSeparator := fun c => c == ';'
      String.ofList (Text.dropEndWhile isSeparator (expanded.dropWhile isSeparator))

end Configuration

end Lua
