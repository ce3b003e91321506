import Assembler8080.Inspection
import Assembler8080.Main
import Assembler8080.Proofs.Independence
import Assembler8080.Proofs.Phase
import Assembler8080.Proofs.Precedence
import Assembler8080.Proofs.Contents
import Assembler8080.Proofs.Progress
import Assembler8080.Proofs.Convergence
import Assembler8080.Proofs.Duplicates
import Assembler8080.Proofs.Meeting
import Assembler8080.Proofs.Ownership
import Assembler8080.Proofs.PassBound
import Assembler8080.Proofs.Ending
import Assembler8080.Proofs.Placeholders
import Assembler8080.Proofs.Aborts
import Assembler8080.Proofs.Slots
import Assembler8080.Proofs.Decoding
import Assembler8080.Proofs.CrossReference
import Assembler8080.Proofs.Reporting
import Assembler8080.Proofs.Continuation
import Assembler8080.Proofs.NumberForms
import Assembler8080.Proofs.Declarations
import Assembler8080.Proofs.DataLists
import Assembler8080.Proofs.ImageHistory
import Assembler8080.Proofs.ListingRows
import Assembler8080.Proofs.Paths
import Assembler8080.Proofs.CommentedText
import Assembler8080.Proofs.Outcome
import Assembler8080.Proofs.CommentedTerms
import Assembler8080.Proofs.Comments
import Assembler8080.Proofs.Indexed
import Assembler8080.Proofs.IndexedLeaves
import Assembler8080.Proofs.LineSpans
import Assembler8080.Proofs.Scanner
import Assembler8080.Proofs.Columns
import Assembler8080.Proofs.ScannedLists
