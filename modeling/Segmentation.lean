import Segmentation.Lexicon
import Segmentation.Printed
import Segmentation.Proofs.Undo
import Segmentation.Proofs.Filtering
import Segmentation.Proofs.EveryPath
import Segmentation.Proofs.Finding
import Segmentation.Proofs.WithinRange
import Segmentation.Proofs.TextRuns
import Segmentation.Proofs.Cuts
import Segmentation.Proofs.Readings
import Segmentation.Proofs.Advancing
import Segmentation.Proofs.Ending
import Segmentation.Proofs.ReachedPaths
import Segmentation.Proofs.Concatenation
import Segmentation.Proofs.Runs
import Segmentation.Proofs.Asking
import Segmentation.Proofs.Counting
import Segmentation.Proofs.Alike
import Segmentation.Proofs.Settling
import Segmentation.Proofs.Equality
import Segmentation.Proofs.Tables
import Segmentation.Proofs.Finer
import Segmentation.Proofs.Policies
import Segmentation.Proofs.Language
import Segmentation.Proofs.FirstPath
import Segmentation.Proofs.Places
import Segmentation.Proofs.Refusals
import Segmentation.Proofs.TextCuts
import Segmentation.Proofs.Cheaper
import Segmentation.Proofs.TailCosts
import Segmentation.Proofs.Serving
