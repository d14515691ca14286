import FixedPool.Layout
import FixedPool.Proofs.PlanDocument
import FixedPool.Proofs.Layout
import FixedPool.Proofs.Peak
import FixedPool.Proofs.Registry
import FixedPool.Proofs.Replay
import FixedPool.Proofs.Plan
import FixedPool.Proofs.Zeroed
import FixedPool.Proofs.Buddy.Geometry
import FixedPool.Proofs.Buddy.Marking
import FixedPool.Proofs.Buddy.Resize
import FixedPool.Proofs.Buddy.SplitMerge
import FixedPool.Proofs.Linear.Retired
import FixedPool.Proofs.Linear.Written
