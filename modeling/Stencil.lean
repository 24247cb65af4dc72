import Stencil.Template
import Stencil.Loader.Directory
import Stencil.Proofs.Pairing
import Stencil.Proofs.Position
import Stencil.Proofs.Run
import Stencil.Proofs.Lockstep
import Stencil.Proofs.Expansion
import Stencil.Proofs.Calls
import Stencil.Proofs.Rereading
import Stencil.Proofs.Names
import Stencil.Proofs.Termination
import Stencil.Proofs.Strictness
import Stencil.Proofs.Inlining
import Stencil.Proofs.Spans
import Stencil.Proofs.Scanning
import Stencil.Proofs.Division
import Stencil.Proofs.Tiling
import Stencil.Proofs.BlockPairs
import Stencil.Proofs.Places
import Stencil.Proofs.Excerpts
import Stencil.Proofs.Bodies
import Stencil.Proofs.Concatenation
import Stencil.Proofs.Origins
import Stencil.Proofs.Nesting
import Stencil.Proofs.Levels
import Stencil.Proofs.Scalars
import Stencil.Proofs.Limits
import Stencil.Proofs.Sameness
import Stencil.Proofs.Inclusions
import Stencil.Proofs.Relevance
import Stencil.Proofs.Printing
import Stencil.Proofs.Outlines
import Stencil.Proofs.BodyRanges
import Stencil.Proofs.TagEnds
import Stencil.Proofs.FullExpansion
import Stencil.Proofs.Directories
import Stencil.Proofs.Merging
import Stencil.Proofs.Warnings
import Stencil.Proofs.Leftovers
import Stencil.Proofs.Documents
import Stencil.Proofs.Mirrors
import Stencil.Proofs.Omissions
import Stencil.Proofs.Counting
