import CallByNeed.CommandLine
import CallByNeed.Main
import CallByNeed.Proofs.MemoDiscipline
import CallByNeed.Proofs.NeedByName
import CallByNeed.Proofs.ParserExact
import CallByNeed.Proofs.RoundTrip
import CallByNeed.Store.Lemmas
import CallByNeed.Workbench
import CallByNeed.Proofs.StoreGrowth
import CallByNeed.Proofs.UnneededCode
import CallByNeed.Proofs.Evidence
import CallByNeed.Proofs.LockStep
import CallByNeed.Proofs.CatchUp
import CallByNeed.Proofs.ExtraWork
import CallByNeed.Proofs.Observation
import CallByNeed.Proofs.FailedTexts
import CallByNeed.Proofs.NameCapture
import CallByNeed.Proofs.Inlining
import CallByNeed.Proofs.LexicalScope
import CallByNeed.Proofs.SessionPieces
import CallByNeed.Proofs.Tiling
import CallByNeed.Proofs.TokenPlaces
import CallByNeed.Proofs.ErrorPlaces
import CallByNeed.Proofs.RunEndings
import CallByNeed.Proofs.PrintedRuns
import CallByNeed.Proofs.ShellInput
import CallByNeed.Proofs.CaretPlaces
import CallByNeed.Proofs.ScopeSafety
import CallByNeed.Proofs.HoistedDeclarations
import CallByNeed.Proofs.ImpossibleTokens
import CallByNeed.Proofs.ExpansionCycles
import CallByNeed.Proofs.ExpansionNormalForm
import CallByNeed.Proofs.FreeLayout
import CallByNeed.Proofs.UnreadableTexts
import CallByNeed.Proofs.NumberDisplay
import CallByNeed.Proofs.StableForcing
import CallByNeed.Proofs.NeededParentheses
import CallByNeed.Proofs.StandardText
