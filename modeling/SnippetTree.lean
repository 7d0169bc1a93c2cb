import SnippetTree.Record.Reading
import SnippetTree.Resolution
import SnippetTree.Script.Run
import SnippetTree.Proofs.WellLinked
import SnippetTree.Proofs.Detaching
import SnippetTree.Proofs.Placing
import SnippetTree.Proofs.Reached
import SnippetTree.Proofs.Forest
import SnippetTree.Proofs.Shown
import SnippetTree.Proofs.Drawing
import SnippetTree.Proofs.Merging
import SnippetTree.Proofs.Moving
import SnippetTree.Proofs.Endings
import SnippetTree.Proofs.Rules
import SnippetTree.Proofs.Walked
import SnippetTree.Proofs.Replacing
import SnippetTree.Proofs.Resolving
import SnippetTree.Proofs.Refinement
import SnippetTree.Proofs.Survivors
import SnippetTree.Proofs.FirstFailure
import SnippetTree.Proofs.Edited
import SnippetTree.Proofs.Obeying
import SnippetTree.Proofs.Sparing
import SnippetTree.Proofs.Transcript
import SnippetTree.Proofs.Marked
import SnippetTree.Proofs.Guarded
import SnippetTree.Proofs.Terminating
import SnippetTree.Proofs.Recording
import SnippetTree.Proofs.Traced
import SnippetTree.Proofs.Leftover
import SnippetTree.Proofs.Exchanged
import SnippetTree.Proofs.Similar
import SnippetTree.Proofs.Reordered
import SnippetTree.Proofs.Schemes
import SnippetTree.Proofs.Preexpanded
import SnippetTree.Proofs.Interchanged
import SnippetTree.Proofs.Delegated
import SnippetTree.Proofs.Carried
import SnippetTree.Proofs.Filing
import SnippetTree.Proofs.Handing
import SnippetTree.Proofs.Confined
import SnippetTree.Proofs.Gathered
import SnippetTree.Proofs.Failing
import SnippetTree.Proofs.Parentless
import SnippetTree.Proofs.Tidied
import SnippetTree.Proofs.Chained
import SnippetTree.Proofs.Rearranging
import SnippetTree.Proofs.Continuing
import SnippetTree.Proofs.Rebound
import SnippetTree.Proofs.Courses
import SnippetTree.Proofs.Skirting
import SnippetTree.Proofs.Toured
import SnippetTree.Proofs.Partway
import SnippetTree.Proofs.Intact
import SnippetTree.Proofs.Avoiding
import SnippetTree.Proofs.Untouched
import SnippetTree.Proofs.Copied
