import AtomicMarkup.Data.Inputs
import AtomicMarkup.Data.Pages
import AtomicMarkup.Data.Settings
import AtomicMarkup.Proofs.ClassIndex
import AtomicMarkup.Proofs.DataForms
import AtomicMarkup.Proofs.Html.NormalForm
import AtomicMarkup.Proofs.Reapplied
import AtomicMarkup.Proofs.RuleOrder
import AtomicMarkup.Proofs.SharedClasses
import AtomicMarkup.Proofs.StyleEnd
import AtomicMarkup.Yaml.Settings
import AtomicMarkup.Proofs.Pruning
import AtomicMarkup.Proofs.NestingLimit
import AtomicMarkup.Proofs.ScopeNesting
import AtomicMarkup.Proofs.ScopeText
import AtomicMarkup.Proofs.Fragments
import AtomicMarkup.Proofs.Respelling
import AtomicMarkup.Proofs.Css.Writer
import AtomicMarkup.Proofs.LiteralClasses
import AtomicMarkup.Proofs.Requirements
import AtomicMarkup.Proofs.FragmentValidity
import AtomicMarkup.Proofs.NestingHeight
import AtomicMarkup.Proofs.StableGroups
import AtomicMarkup.Proofs.QueryGrammar
import AtomicMarkup.Proofs.PseudoElements
import AtomicMarkup.Proofs.EitherOrder
import AtomicMarkup.Proofs.SchemeTexts
import AtomicMarkup.Proofs.CustomRules
import AtomicMarkup.Proofs.FontStacks
import AtomicMarkup.Proofs.StartTags
import AtomicMarkup.Proofs.VoidTags
import AtomicMarkup.Proofs.TypedRules
import AtomicMarkup.Proofs.NumeralForm
import AtomicMarkup.Proofs.InputBounds
import AtomicMarkup.Proofs.ColorGrammar
import AtomicMarkup.Proofs.SideShorthands
import AtomicMarkup.Proofs.CustomNames
import AtomicMarkup.Proofs.FontAddress
import AtomicMarkup.Proofs.TokenOrder
import AtomicMarkup.Proofs.ThemeLookups
import AtomicMarkup.Proofs.CanonicalNumeral
import AtomicMarkup.Proofs.ClassTokens
