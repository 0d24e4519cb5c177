import DemandPaging.Machine.Operation
import DemandPaging.Proofs.AddressChecks
import DemandPaging.Proofs.Contents
import DemandPaging.Proofs.FailedFork
import DemandPaging.Proofs.FlatMemory.Basic
import DemandPaging.Proofs.FlatMemory.Refinement
import DemandPaging.Proofs.ForkStructure
import DemandPaging.Proofs.ForkedFiles
import DemandPaging.Proofs.MappedFile.ReadBack
import DemandPaging.Proofs.MappedFile.Runs
import DemandPaging.Proofs.MappedFile.Unmapping
import DemandPaging.Proofs.PanicFreedom
import DemandPaging.Proofs.ResidencyInvariant
import DemandPaging.Proofs.SlotOwnership
import DemandPaging.Proofs.WriteProtection
import DemandPaging.SpinLock
import DemandPaging.Proofs.Executable.Segment
import DemandPaging.Proofs.Executable.Touching
import DemandPaging.Proofs.Clock.Fairness
import DemandPaging.Proofs.Teardown.Holders
import DemandPaging.Proofs.Teardown.Order
import DemandPaging.Proofs.Teardown.Recycling
import DemandPaging.Proofs.FailedLoad
import DemandPaging.Proofs.EvictionCount.Claims
import DemandPaging.Proofs.EvictionCount.Copies
import DemandPaging.Proofs.EvictionCount.FirstTouches
import DemandPaging.Proofs.EvictionCount.Runs
import DemandPaging.Proofs.ExactCopies.Accesses
import DemandPaging.Proofs.ExactCopies.Effects
import DemandPaging.Proofs.ExactCopies.Runs
import DemandPaging.Proofs.Executable.Requests
import DemandPaging.Proofs.Executable.Runs
import DemandPaging.Proofs.Clock.Laps
import DemandPaging.Proofs.FramePool.Custody
import DemandPaging.Proofs.PageTable.Translation
import DemandPaging.Proofs.Swap.FirstFit
