import Lua.Library.Registry
import Lua.Machine
import Lua.Proofs.BasedNumerals
import Lua.Proofs.Border
import Lua.Proofs.CharacterPattern
import Lua.Proofs.CharacterStarts
import Lua.Proofs.CompleteTraversal
import Lua.Proofs.DefaultOrder
import Lua.Proofs.DepthLimits
import Lua.Proofs.EncodedAgreement
import Lua.Proofs.EncodedForms
import Lua.Proofs.ErrorValue
import Lua.Proofs.Execution
import Lua.Proofs.FloatLiterals
import Lua.Proofs.HandBack
import Lua.Proofs.Independence
import Lua.Proofs.IndexChains
import Lua.Proofs.InternalErrors
import Lua.Proofs.Joining
import Lua.Proofs.LifeCycle
import Lua.Proofs.MatchWalks
import Lua.Proofs.Moving
import Lua.Proofs.NumberOrder
import Lua.Proofs.Numerals
import Lua.Proofs.PatternMatch
import Lua.Proofs.ProtectedCall
import Lua.Proofs.QuotedTexts
import Lua.Proofs.Replacements
import Lua.Proofs.Searching
import Lua.Proofs.Shifting
import Lua.Proofs.StackTraces
import Lua.Proofs.Substitution
import Lua.Proofs.Substrings
import Lua.Proofs.Suspension
import Lua.Proofs.TailCalls
import Lua.Proofs.Tracebacks
import Lua.Proofs.Traversal
import Lua.Proofs.Wrapping
import Lua.Proofs.YieldPermission
import Lua.Proofs.YieldTransparency
