import CacheReplay.Simulation
import CacheReplay.Workload
import CacheReplay.Proofs.Arena
import CacheReplay.Proofs.Chain
import CacheReplay.Proofs.Chain.Validation
import CacheReplay.Proofs.Store
import CacheReplay.Proofs.Account
import CacheReplay.Proofs.Run
import CacheReplay.Proofs.Wrapping
import CacheReplay.Proofs.Observation
import CacheReplay.Proofs.Queue
import CacheReplay.Proofs.QueuePolicies
import CacheReplay.Proofs.Arc
import CacheReplay.Proofs.Headroom
import CacheReplay.Proofs.Arc.Bytes
import CacheReplay.Proofs.Arc.Headroom
import CacheReplay.Proofs.Arc.Coherence
import CacheReplay.Proofs.Arc.Directory
import CacheReplay.Proofs.Queue.Plain
import CacheReplay.Proofs.Queue.Headroom
import CacheReplay.Proofs.Queue.Refinement
import CacheReplay.Proofs.Queue.Recency
import CacheReplay.Proofs.Queue.Arrival
import CacheReplay.Proofs.Queue.Anomaly
import CacheReplay.Proofs.GLCache.Ranking
import CacheReplay.Proofs.GLCache.Valuation
import CacheReplay.Proofs.GLCache.Choice
import CacheReplay.Proofs.GLCache.Ownership
import CacheReplay.Proofs.GLCache.Ghosts
import CacheReplay.Proofs.GLCache.Sifting
import CacheReplay.Proofs.GLCache.Merge
import CacheReplay.Proofs.GLCache.Quarantine
import CacheReplay.Proofs.GLCache.Listing
import CacheReplay.Proofs.GLCache.Operations
import CacheReplay.Proofs.GLCache.Training
import CacheReplay.Proofs.GLCache.Audit
import CacheReplay.Proofs.GLCache.Invariants
import CacheReplay.Proofs.Admission
import CacheReplay.Proofs.Lookup
import CacheReplay.Proofs.GLCache.Conservation
import CacheReplay.Proofs.GLCache.Rows
import CacheReplay.Proofs.GLCache.Failures
import CacheReplay.Proofs.GLCache.Sightings
import CacheReplay.Proofs.Queue.Overdraft
import CacheReplay.Proofs.Queue.Resolution
import CacheReplay.Proofs.Regression.Fitting
import CacheReplay.Proofs.GLCache.Ranges
import CacheReplay.Proofs.GLCache.Appraisal
import CacheReplay.Proofs.GLCache.Compaction
import CacheReplay.Proofs.GLCache.Bookkeeping
import CacheReplay.Proofs.GLCache.Endurance
import CacheReplay.Proofs.GLCache.Runs
import CacheReplay.Proofs.GLCache.Schedule
import CacheReplay.Proofs.Expiry
import CacheReplay.Proofs.Simulation.Replay
import CacheReplay.Proofs.Simulation.Warmup
import CacheReplay.Proofs.Simulation.Hints
import CacheReplay.Proofs.Queue.Upkeep
import CacheReplay.Proofs.Queue.Aging
import CacheReplay.Proofs.Queue.Coherence
import CacheReplay.Proofs.Renaming.Stores
import CacheReplay.Proofs.Renaming.Runs
import CacheReplay.Proofs.Renaming.Queues
import CacheReplay.Proofs.Renaming.Arc
import CacheReplay.Proofs.Renaming.GLCache
import CacheReplay.Proofs.Renaming.Keys
import CacheReplay.Proofs.Renaming.Caches
import CacheReplay.Proofs.Store.Catalogue
import CacheReplay.Proofs.Chain.Strands
import CacheReplay.Proofs.GLCache.Fates
import CacheReplay.Proofs.GLCache.Consolidation
import CacheReplay.Proofs.Floating
import CacheReplay.Proofs.GLCache.Retention
import CacheReplay.Proofs.Queue.Line
import CacheReplay.Proofs.Queue.Laps
import CacheReplay.Proofs.Queue.Sweep
import CacheReplay.Proofs.Arc.Victim
import CacheReplay.Proofs.GLCache.Threading
import CacheReplay.Proofs.GLCache.Housekeeping
import CacheReplay.Proofs.GLCache.Cursors
import CacheReplay.Proofs.GLCache.Rounds
import CacheReplay.Proofs.GLCache.Fading
import CacheReplay.Proofs.GLCache.Consumption
import CacheReplay.Proofs.GLCache.Selections
import CacheReplay.Proofs.GLCache.Weighing
import CacheReplay.Proofs.GLCache.Penalties
import CacheReplay.Proofs.Arena.Stock
import CacheReplay.Proofs.Simulation.Attribution
import CacheReplay.Proofs.Params
import CacheReplay.Proofs.GLCache.Knobs
import CacheReplay.Proofs.Regression.Growth
import CacheReplay.Proofs.Regression.Trees
import CacheReplay.Proofs.Workload
import CacheReplay.Proofs.Simulation.Steps
import CacheReplay.Proofs.GLCache.Window
