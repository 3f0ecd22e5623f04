import Lexis.FileTree
import Lexis.Main
import Lexis.Writing
import Lexis.Proofs.Ascii
import Lexis.Proofs.DecimalValue
import Lexis.Proofs.LineBreaks
import Lexis.Proofs.LineSplitting
import Lexis.Proofs.LinePlaces
import Lexis.Proofs.LineTerminators
import Lexis.Proofs.CommentNesting
import Lexis.Proofs.GapFilling
import Lexis.Proofs.Spelling
import Lexis.Proofs.Offence
import Lexis.Proofs.TokenRun
import Lexis.Proofs.Layout
import Lexis.Proofs.Rejection
import Lexis.Proofs.TerminatorIndependence
import Lexis.Proofs.Concatenation
import Lexis.Proofs.CommentBlanking
import Lexis.Proofs.PlaceOrder
import Lexis.Proofs.CallSequences
import Lexis.Proofs.LossyDecoding
import Lexis.Proofs.FaultPlaces
import Lexis.Proofs.Excerpts
import Lexis.Proofs.Renderings
import Lexis.Proofs.ReportLines
import Lexis.Proofs.Lookahead
import Lexis.Proofs.TokenListing
import Lexis.Proofs.ProgramOutcome
import Lexis.Proofs.DumpReading
import Lexis.Proofs.CommentDepth
import Lexis.Proofs.NumberReading
import Lexis.Proofs.LineSlices
import Lexis.Proofs.DecodedLines
import Lexis.Proofs.CharacterDecoding
import Lexis.Proofs.CounterLimits
import Lexis.Proofs.ExcerptColumns
import Lexis.Proofs.Progress
import Lexis.Proofs.LimitedWriting
