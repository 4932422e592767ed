import Rangefinder.Proofs.Analysis.Extraction
import Rangefinder.Proofs.Analysis.Marks
import Rangefinder.Proofs.Analysis.MemoryRanges
import Rangefinder.Proofs.Analysis.Sweeps
import Rangefinder.Proofs.Flow.LoopNesting
import Rangefinder.Proofs.Linear.Combinations
import Rangefinder.Proofs.Number.Residues
import Rangefinder.Proofs.Procedure.Uses
import Rangefinder.Proofs.Range.BitwiseSoundness
import Rangefinder.Proofs.Range.DivisionSoundness
import Rangefinder.Proofs.Range.FunctionSoundness
import Rangefinder.Proofs.Range.ShiftSoundness
import Rangefinder.Proofs.Stages.EdgeRefinements
import Rangefinder.Proofs.Stages.LiveBounds
import Rangefinder.Proofs.Stages.OptimizedRuns
import Rangefinder.Proofs.Stages.PhiRanges
import Rangefinder.Proofs.Stages.Settling
import Rangefinder.Proofs.Stages.TruncatedRuns
