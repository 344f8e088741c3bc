import PatternAutomata.Main
import PatternAutomata.Proofs.AutomatonLaws
import PatternAutomata.Proofs.AutomatonSize
import PatternAutomata.Proofs.ClosureSearch
import PatternAutomata.Proofs.ConstructionInvariant
import PatternAutomata.Proofs.DumpsFaithful
import PatternAutomata.Proofs.EndSearch
import PatternAutomata.Proofs.ErrorKinds
import PatternAutomata.Proofs.FuzzerPasses
import PatternAutomata.Proofs.MatcherRuns
import PatternAutomata.Proofs.PatternChoices
import PatternAutomata.Proofs.PatternComposition
import PatternAutomata.Proofs.StateCount
import PatternAutomata.Proofs.SubsetLog
import PatternAutomata.Proofs.TokenStream
import PatternAutomata.Proofs.UniformDraws
import PatternAutomata.Proofs.ViablePrefix
import PatternAutomata.Proofs.WitnessWords
import PatternAutomata.Proofs.WordDraws
