import ByteMachine.Backend
import ByteMachine.Blueprint.Basic
import ByteMachine.Blueprint.Build
import ByteMachine.Callback
import ByteMachine.Compile.Assembly
import ByteMachine.Compile.Pipeline
import ByteMachine.Compile.Site
import ByteMachine.Digraph
import ByteMachine.Journal
import ByteMachine.Json
import ByteMachine.Machine.Basic
import ByteMachine.Machine.Wiring
import ByteMachine.Machine.Listing
import ByteMachine.Names
import ByteMachine.Options
import ByteMachine.Property
import ByteMachine.Span
import ByteMachine.Table
import ByteMachine.Text
import ByteMachine.Trie
import ByteMachine.Proofs.Calls
import ByteMachine.Proofs.TrieEntries
import ByteMachine.Proofs.TrieReading
import ByteMachine.Proofs.Walk
import ByteMachine.Proofs.TrieMatching
import ByteMachine.Proofs.TrieErrors
import ByteMachine.Proofs.EdgeTries
import ByteMachine.Proofs.Sites
import ByteMachine.Proofs.Assembled
import ByteMachine.Proofs.Tables
import ByteMachine.Proofs.Translation
import ByteMachine.Proofs.PartialAssembly
import ByteMachine.Proofs.Translator
import ByteMachine.Proofs.TranslationProgress
import ByteMachine.Proofs.TranslatedTries
import ByteMachine.Proofs.TranslatedNodes
import ByteMachine.Proofs.MemoisedTranslation
import ByteMachine.Proofs.Compilation
import ByteMachine.Proofs.OpenSpans
import ByteMachine.Proofs.Outcome
import ByteMachine.Proofs.Bypass
import ByteMachine.Proofs.CallbackKeys
import ByteMachine.Proofs.Run
import ByteMachine.Proofs.MirroredRun
import ByteMachine.Proofs.Preservation
import ByteMachine.Proofs.Representation
import ByteMachine.Proofs.SpanPlaces
import ByteMachine.Proofs.UniqueNames
import ByteMachine.Proofs.SharedCallbacks
import ByteMachine.Proofs.Renaming
import ByteMachine.Proofs.RenamedTries
import ByteMachine.Proofs.RenamedCompilation
import ByteMachine.Proofs.WellFormed
import ByteMachine.Proofs.Redirection
import ByteMachine.Proofs.CompressedTries
import ByteMachine.Proofs.EntrySets
import ByteMachine.Proofs.FirstFit
import ByteMachine.Proofs.OpenRounds
import ByteMachine.Proofs.TableChoice
import ByteMachine.Proofs.CallEffects
import ByteMachine.Proofs.PlacedSpans
import ByteMachine.Proofs.EdgeSlots
import ByteMachine.Proofs.ResumptionPoints
import ByteMachine.Proofs.Traversal
import ByteMachine.Proofs.FaithfulListing
