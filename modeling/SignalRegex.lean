import SignalRegex.Automaton.Dot
import SignalRegex.Automaton.Path
import SignalRegex.Machine.Engine
import SignalRegex.Machine.Trace
import SignalRegex.Matcher
import SignalRegex.Pattern.Language
import SignalRegex.Program.Listing
import SignalRegex.Program.Run
import SignalRegex.Proofs.AcceptedTexts
import SignalRegex.Proofs.BlockPieces
import SignalRegex.Proofs.Chains
import SignalRegex.Proofs.CompiledPatterns
import SignalRegex.Proofs.DecodedText
import SignalRegex.Proofs.DistinctSignals
import SignalRegex.Proofs.EdgeTables
import SignalRegex.Proofs.EpsilonRemoval
import SignalRegex.Proofs.Fragments
import SignalRegex.Proofs.GrammarReading
import SignalRegex.Proofs.GroupedPatterns
import SignalRegex.Proofs.Installation
import SignalRegex.Proofs.LiveStates
import SignalRegex.Proofs.MachineRuns
import SignalRegex.Proofs.MatcherAnswers
import SignalRegex.Proofs.MergeFixedPoints
import SignalRegex.Proofs.ParsedPatterns
import SignalRegex.Proofs.PatternGrammar
import SignalRegex.Proofs.PrintedSets
import SignalRegex.Proofs.ProgramChecks
import SignalRegex.Proofs.ProgramLayout
import SignalRegex.Proofs.ReaderAnswers
import SignalRegex.Proofs.ReducedAnswers
import SignalRegex.Proofs.Reductions
import SignalRegex.Proofs.Renumbering
import SignalRegex.Proofs.ScannedTokens
import SignalRegex.Proofs.SetMembership
import SignalRegex.Proofs.SignalReading
import SignalRegex.Proofs.UsefulStates
import SignalRegex.Utf8.Sequence
import SignalRegex.Wire.Program
import SignalRegex.Proofs.InternedSets
import SignalRegex.Proofs.AppendedPatterns
import SignalRegex.Proofs.DecodedSequences
import SignalRegex.Proofs.EngineRuns
import SignalRegex.Proofs.MachineSessions
import SignalRegex.Proofs.BuiltMachines
import SignalRegex.Proofs.WireForms
import SignalRegex.Proofs.ShortestCovers
import SignalRegex.Proofs.BreadthFirstNumbers
import SignalRegex.Proofs.ClassMeaning
import SignalRegex.Proofs.MergeRounds
import SignalRegex.Proofs.PrunedStates
import SignalRegex.Proofs.NestingLimits
import SignalRegex.Proofs.ResumedDecoding
import SignalRegex.Proofs.GraphSearches
