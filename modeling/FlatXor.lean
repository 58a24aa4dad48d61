import FlatXor.Binomial
import FlatXor.CodeFamily
import FlatXor.CodeParams
import FlatXor.CodeTable
import FlatXor.CommandLine
import FlatXor.DataSet
import FlatXor.Declarations
import FlatXor.FailureTable
import FlatXor.FamilyText
import FlatXor.Json.Scalar
import FlatXor.Json.Skip
import FlatXor.Json.Text
import FlatXor.Main
import FlatXor.Mask
import FlatXor.Oscillation
import FlatXor.ParitySet
import FlatXor.Pool
import FlatXor.Program
import FlatXor.Proofs.AsciiText
import FlatXor.Proofs.Backtracking
import FlatXor.Proofs.Calls
import FlatXor.Proofs.Candidates
import FlatXor.Proofs.Circle
import FlatXor.Proofs.Convergence
import FlatXor.Proofs.Copies
import FlatXor.Proofs.CopyOrder
import FlatXor.Proofs.Course
import FlatXor.Proofs.DataNumber
import FlatXor.Proofs.DeclarationText
import FlatXor.Proofs.Detection
import FlatXor.Proofs.FamilyTables
import FlatXor.Proofs.FirstReport
import FlatXor.Proofs.JsonLeaves
import FlatXor.Proofs.JsonLines
import FlatXor.Proofs.OscillationShape
import FlatXor.Proofs.ParitySubset
import FlatXor.Proofs.PoolTurn
import FlatXor.Proofs.RecordText
import FlatXor.Proofs.RelabelledSearch
import FlatXor.Proofs.Relabelling
import FlatXor.Proofs.Replay
import FlatXor.Proofs.Reports
import FlatXor.Proofs.Rounds
import FlatXor.Proofs.RunLoop
import FlatXor.Proofs.Step
import FlatXor.Proofs.Stopping
import FlatXor.Proofs.TableRows
import FlatXor.Proofs.Tally
import FlatXor.Proofs.Termination
import FlatXor.Proofs.Trajectory
import FlatXor.Proofs.Trials
import FlatXor.RangeFault
import FlatXor.Reader
import FlatXor.Search
import FlatXor.SearchState
import FlatXor.Settings
import FlatXor.Sink
import FlatXor.Statistics
import FlatXor.TableRecord
import FlatXor.Toml.DateTime
import FlatXor.Toml.Document
import FlatXor.Toml.Number
import FlatXor.Toml.Text
import FlatXor.Toml.Value
import FlatXor.Toml.WrittenValue
import FlatXor.TupleStream
import FlatXor.WordIndex
import FlatXor.Proofs.FullSink
import FlatXor.Proofs.DeclarationReader
import FlatXor.Proofs.FamilyListing
import FlatXor.Proofs.OptionReading
import FlatXor.Proofs.SettingsSources
import FlatXor.Proofs.CodesRun
import FlatXor.Proofs.TableFilling
import FlatXor.Proofs.Binomials
import FlatXor.Proofs.TableCheck
import FlatXor.Proofs.TupleOrder
import FlatXor.Proofs.IndexSlots
import FlatXor.Proofs.TupleIndices
import FlatXor.Proofs.BinomialWords
import FlatXor.Proofs.WordScan
import FlatXor.Proofs.ParityMembers
import FlatXor.Proofs.DataMembers
import FlatXor.Proofs.FailureGeneration
