import AtomicMarkup.Number.Numeral

/-!
The reasons for which a page, a style or a setting is refused, and their wording.
-/

namespace AtomicMarkup

def maxNestingDepth : Nat := 256

inductive MarkupError where
  | invalidTag (tag : String)
  | invalidAttribute (tag name : String)
  | invalidSelector (tag selector : String)
  | invalidPropertyName (property : String)
  | invalidPropertyValue (property value : String)
  | colorExpected (value : String)
  | invalidHexDigits (value : String)
  | invalidHexLength (value : String)
  | voidElementChildren (tag : String)
  | nestedTooDeeply
  | missingTitle
  | invalidFontFamily (family : String)
  | invalidFontWeight (family : String) (weight : UInt16)
  | invalidMetaName (name : String)
  | themeVariableNotFound (category name : String)
  | invalidThemeReference (reference : String)
  | invalidClassPrefix (text : String)
  | malformedData
  deriving DecidableEq

namespace MarkupError

def quoted (s : String) : String :=
  "'" ++ s ++ "'"

def colorMessage (value reason : String) : String :=
  "Invalid color value " ++ quoted value ++ ": " ++ reason

def message : MarkupError → String
  | invalidTag tag =>
    "Invalid tag " ++ quoted tag ++
      ": tag names must start with a letter and contain only letters, digits or '-'"
  | invalidAttribute tag name =>
    "Invalid attribute " ++ quoted name ++ " on <" ++ tag ++
      ">: attribute names must be identifiers"
  | invalidSelector tag selector =>
    "Invalid selector target " ++ quoted selector ++ " on <" ++ tag ++
      ">: selector targets may not contain '\x7b', '\x7d', ';', ',' or '<'"
  | invalidPropertyName property =>
    "Invalid style property " ++ quoted property ++
      ": property names must be identifiers, optionally prefixed with '-' or '--'"
  | invalidPropertyValue property value =>
    "Invalid style property " ++ quoted property ++ ": invalid value " ++ quoted value
  | colorExpected value => colorMessage value "expected '#rgb', '#rrggbb' or a color name"
  | invalidHexDigits value => colorMessage value "invalid hex digits"
  | invalidHexLength value => colorMessage value "hex colors must have 3 or 6 digits"
  | voidElementChildren tag => "Void element <" ++ tag ++ "> cannot have children"
  | nestedTooDeeply =>
    "Maximum nesting depth (" ++ Number.decimal maxNestingDepth ++ ") exceeded"
  | missingTitle => "Document head is missing required field 'title'"
  | invalidFontFamily family =>
    "Invalid font family name " ++ quoted family ++ ": must be a non-empty string"
  | invalidFontWeight family weight =>
    "Validation error: font " ++ quoted family ++ " weight " ++ Number.decimal weight.toNat ++
      " is invalid: must be 100-900 in increments of 100"
  | invalidMetaName name =>
    "Validation error: meta name " ++ quoted name ++ " is not a valid identifier"
  | themeVariableNotFound category name =>
    "Theme variable " ++ quoted (category ++ "." ++ name) ++ " not found"
  | invalidThemeReference reference => "Invalid theme variable reference: " ++ reference
  | invalidClassPrefix text =>
    "Invalid configuration value for 'classPrefix': " ++ quoted text ++
      " must start with a letter or '_' and contain only letters, digits, '_' or '-'"
  | malformedData => "Deserialization error"

end MarkupError

end AtomicMarkup
