import BlockSync.Block.Json
import BlockSync.Main
import BlockSync.Metrics.Exposition
import BlockSync.Proofs.Block.Json
import BlockSync.Proofs.Block.PrefixCode
import BlockSync.Proofs.BlockHash
import BlockSync.Proofs.Chain.Linked
import BlockSync.Proofs.CommandLine.Inspection
import BlockSync.Proofs.Metrics.Tally
import BlockSync.Proofs.Store.BlockQueue.Chunks
import BlockSync.Proofs.Store.Consumption
import BlockSync.Proofs.Store.Healing
import BlockSync.Proofs.Store.Lending
import BlockSync.Proofs.Store.Recovery
import BlockSync.Proofs.Store.Refusals
import BlockSync.Proofs.Store.WaitingRoom
import BlockSync.Proofs.Sync.Announcement
import BlockSync.Proofs.Sync.Backlog
import BlockSync.Proofs.Sync.Closing
import BlockSync.Proofs.Sync.Conservation
import BlockSync.Proofs.Sync.Delivery
import BlockSync.Proofs.Sync.Endurance
import BlockSync.Proofs.Sync.ImportCounts
import BlockSync.Proofs.Sync.Isolation
import BlockSync.Proofs.Sync.LastAnnounced
import BlockSync.Proofs.Sync.OneWay
import BlockSync.Proofs.Sync.Pacing
import BlockSync.Proofs.Sync.PendingBlocks
import BlockSync.Proofs.Sync.PendingHashes
import BlockSync.Proofs.Sync.Restarting
import BlockSync.Store.WaitingRoom
import BlockSync.Sync.Rehearsal
