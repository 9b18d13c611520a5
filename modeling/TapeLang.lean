import TapeLang.FileTree
import TapeLang.Main
import TapeLang.Proofs.Arguments
import TapeLang.Proofs.Brackets.LoopStack
import TapeLang.Proofs.Brackets.Partner
import TapeLang.Proofs.Condense.Concatenation
import TapeLang.Proofs.Condense.Descent
import TapeLang.Proofs.Condense.OneWay
import TapeLang.Proofs.Cutoff
import TapeLang.Proofs.Invocation
import TapeLang.Proofs.Media
import TapeLang.Proofs.Resumption
import TapeLang.Proofs.Spelling
import TapeLang.Proofs.Structure.DeadLoop
import TapeLang.Proofs.Structure.Sequence
import TapeLang.Proofs.Text.WellFormed
import TapeLang.Proofs.Variants
