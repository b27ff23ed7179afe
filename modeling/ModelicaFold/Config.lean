import ModelicaFold.Decimal.Read
import ModelicaFold.Text.Blank
import ModelicaFold.Text.Split
import ModelicaFold.Word

/-!
# Configuration

The recursion limit and the switches of the evaluator, and how both are read from text.
-/

namespace ModelicaFold

/-- The switches of the evaluator. -/
structure Flags where
  /-- The functions on lists, options and characters are built in. -/
  metamodelica : Bool
  /-- Rejected alternatives are logged. -/
  trace : Bool
  /-- An unbound variable of a known type reads as an empty value. -/
  deferUnbound : Bool
deriving DecidableEq

namespace Flags

def none : Flags := ⟨false, false, false⟩

def all : Flags := ⟨true, true, true⟩

/-- The switches with the one that a word names turned on; an unknown word changes nothing. -/
def enable (flags : Flags) (word : String) : Flags :=
  if word = "metamodelica" then { flags with metamodelica := true }
  else if word = "trace" then { flags with trace := true }
  else if word = "defer-unbound" || word = "defer_unbound" then { flags with deferUnbound := true }
  else if word = "all" then all
  else flags

/-- Reads words separated by commas; blanks around a word and the case of ASCII letters do not
count. -/
def parse (s : String) : Flags :=
  (Text.split ',' s.toList).foldl
    (fun flags word => flags.enable (String.ofList ((Text.trim word).map Char.toLower))) none

end Flags

/-- The limit on the depth of evaluation, and the switches. -/
structure Config where
  recursionLimit : Nat
  flags : Flags
deriving DecidableEq

namespace Config

/-- The recursion limit when nothing else is said. -/
def defaultLimit : Nat := 256

def standard : Config := ⟨defaultLimit, .none⟩

/-- The limit that a text gives: a positive number in range, or else the default. -/
def parseLimit (s : String) : Nat :=
  match Decimal.count? (Text.trim s.toList) with
  | some n => if 0 < n && n < wordCount then n else defaultLimit
  | none => defaultLimit

/-- The configuration that two optional texts give. -/
def ofTexts (limit flags : Option String) : Config :=
  ⟨(limit.map parseLimit).getD defaultLimit, (flags.map Flags.parse).getD .none⟩

end Config

end ModelicaFold
