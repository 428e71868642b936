import Staging.Diagnostic
import Staging.Tree

namespace Staging

/-- How a region is made legal. -/
structure Options where
  /-- Values that skip stages go through copies; else the stages they skip are merged. -/
  insertCopy : Bool
  /-- The least number of levels that make up a stage. -/
  minGran : Nat
deriving DecidableEq

/-- The options that one source sets; the others keep what they were. -/
structure Overrides where
  insertCopy : Option Bool
  minGran : Option Nat
deriving DecidableEq

def Options.default : Options :=
  ⟨true, 1⟩

/-- Granularities are unsigned and 32 bits wide. -/
def fitsGran (n : Nat) : Bool :=
  n < Nat.pow 2 32

def Options.apply (o : Options) (overrides : Overrides) : Options :=
  ⟨overrides.insertCopy.getD o.insertCopy, overrides.minGran.getD o.minGran⟩

def Options.Valid (o : Options) : Prop :=
  1 ≤ o.minGran

instance (o : Options) : Decidable o.Valid :=
  inferInstanceAs (Decidable (1 ≤ o.minGran))

/-- What is wrong with invalid options. -/
def Options.complaint (o : Options) : String :=
  "min_gran must be at least 1, got " ++ toString o.minGran

/-- Whether levels are folded into stages. -/
def Options.renumbers (o : Options) : Bool :=
  o.minGran ≠ 1 || !o.insertCopy

def knownSettings : List String :=
  ["insert_copy", "min_gran"]

def Diagnostic.unknownSetting (name : Name) : Diagnostic :=
  { Diagnostic.warning .unknownSetting name.span ("unknown setting '" ++ name.text ++ "'") with
    hint := some ("known settings: " ++ String.intercalate ", " knownSettings) }

def Diagnostic.settingKind (name expected : String) (span : Span) : Diagnostic :=
  .error .invalidSetting span ("setting '" ++ name ++ "' expects " ++ expected)

def Diagnostic.badGranularity (value : Int) (span : Span) : Diagnostic :=
  .error .invalidSetting span ("min_gran must be a positive integer, got " ++ toString value)

/-- Applies a setting, or says why not. -/
def Options.applySetting (o : Options) (s : Setting) : Except Diagnostic Options :=
  match s.name.text, s.value with
  | "insert_copy", .bool b => .ok { o with insertCopy := b }
  | "insert_copy", _ => .error (.settingKind "insert_copy" "a boolean" s.valueSpan)
  | "min_gran", .int v =>
    if 1 ≤ v && fitsGran v.toNat then .ok { o with minGran := v.toNat }
    else .error (.badGranularity v s.valueSpan)
  | "min_gran", _ => .error (.settingKind "min_gran" "an integer" s.valueSpan)
  | _, _ => .error (.unknownSetting s.name)

/-- Applies the settings among some items in order, and collects the complaints. -/
def Options.applyItems (o : Options) : List Item → Options × List Diagnostic
  | [] => (o, [])
  | .func _ :: items => o.applyItems items
  | .setting s :: items =>
    match o.applySetting s with
    | .ok o => o.applyItems items
    | .error d =>
      let (o, ds) := o.applyItems items
      (o, d :: ds)

/-- The options that a program selects over the defaults. -/
def Program.options (p : Program) : Options × List Diagnostic :=
  Options.default.applyItems p.items

end Staging
