import Campanology.Truth.Queue
import Campanology.Version
import Campanology.Proofs.Row.Cycles
import Campanology.Proofs.Truth.Repeats
import Campanology.Proofs.Truth.Copies
import Campanology.Proofs.Truth.Quotients
import Campanology.Proofs.Truth.Agreement
import Campanology.Proofs.Method.PlainCourse
import Campanology.Proofs.Change.Token
import Campanology.Proofs.Change.Grammar
import Campanology.Proofs.Change.Segment
import Campanology.Proofs.Change.Rendering
import Campanology.Proofs.Change.Places
import Campanology.Proofs.Change.RoundTrip
import Campanology.Proofs.Ringing.UntilRounds
import Campanology.Proofs.Truth.Positions
import Campanology.Proofs.Method.CourseUnits
import Campanology.Proofs.Method.CourseHeads
import Campanology.Proofs.Ringing.History
import Campanology.Proofs.Truth.Sessions
import Campanology.Proofs.Refusals
import Campanology.Proofs.Change.Pairing
import Campanology.Proofs.Change.Runs
import Campanology.Proofs.Row.Queries
import Campanology.Proofs.Row.Packed
import Campanology.Proofs.Ringing.Strings
import Campanology.Proofs.Truth.Provenance
import Campanology.Proofs.Truth.Accounts
import Campanology.Proofs.Truth.Queues
import Campanology.Proofs.Ringing.ReadOff
import Campanology.Proofs.Block.Partition
import Campanology.Proofs.Truth.Calls
import Campanology.Proofs.Truth.Sheets
import Campanology.Proofs.Library.Titles
import Campanology.Proofs.Row.Sign
import Campanology.Proofs.Ringing.Signs
import Campanology.Proofs.Row.Powers
import Campanology.Proofs.Truth.Batches
import Campanology.Proofs.Truth.Passes
import Campanology.Proofs.Truth.Lookups
import Campanology.Proofs.Truth.RelativeHeads
import Campanology.Proofs.Truth.FalseHeads
import Campanology.Proofs.Ringing.RowByRow
import Campanology.Proofs.Ringing.OtherStarts
import Campanology.Proofs.Method.LeadHeads
import Campanology.Proofs.Change.Denotation
import Campanology.Proofs.Truth.Extent
import Campanology.Proofs.Row.Reading
import Campanology.Proofs.Change.Blanks
import Campanology.Proofs.Change.Tokens
import Campanology.Proofs.Change.Offences
import Campanology.Proofs.Method.Palindromes
import Campanology.Proofs.Row.Orders
import Campanology.Proofs.Method.UsualCaps
import Campanology.Proofs.Library.Stages
import Campanology.Proofs.Library.Catalogue
import Campanology.Proofs.Text.EditDistance
import Campanology.Proofs.Library.Matchers
import Campanology.Proofs.Library.Suggestions
import Campanology.Proofs.Row.Orbits
import Campanology.Proofs.Truth.TableSize
import Campanology.Proofs.Truth.Slowest
