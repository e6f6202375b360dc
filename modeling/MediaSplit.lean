import MediaSplit.Bus
import MediaSplit.Cache.Concurrent
import MediaSplit.Main
import MediaSplit.Proofs.Partition
import MediaSplit.Proofs.Splitter.Outputs
import MediaSplit.Proofs.Css.Beginnings
import MediaSplit.Proofs.Css.Nesting
import MediaSplit.Proofs.Css.Printing
import MediaSplit.Proofs.Css.Rules
import MediaSplit.Proofs.Splitter.Telling
import MediaSplit.Proofs.Splitter.Collecting
import MediaSplit.Proofs.Splitter.Concluding
import MediaSplit.Proofs.Splitter.Unread
import MediaSplit.Proofs.Files.Touching
import MediaSplit.Proofs.Splitter.Stripping
import MediaSplit.Proofs.Splitter.Isolation
import MediaSplit.Proofs.Files.CopyNames
import MediaSplit.Proofs.Files.Spelling
import MediaSplit.Proofs.Resolving
import MediaSplit.Proofs.Splitter.Collisions
import MediaSplit.Proofs.Files.Widening
import MediaSplit.Proofs.Files.Overlaying
import MediaSplit.Proofs.Files.Rooted
import MediaSplit.Proofs.Conservation
import MediaSplit.Proofs.Files.CopyWays
import MediaSplit.Proofs.Splitter.Mixing
import MediaSplit.Proofs.Splitter.Reordering
import MediaSplit.Proofs.Css.Copies
import MediaSplit.Proofs.Css.Splitting
import MediaSplit.Proofs.Nodes
import MediaSplit.Proofs.Combining
import MediaSplit.Proofs.Cache.History
import MediaSplit.Proofs.Cache.Sharing
import MediaSplit.Proofs.Splitter.Sources
import MediaSplit.Proofs.Splitter.Protocol
import MediaSplit.Proofs.Files.Refusals
import MediaSplit.Proofs.Splitter.Ending
import MediaSplit.Proofs.Json
import MediaSplit.Proofs.Merging
import MediaSplit.Proofs.Files.Globbing
import MediaSplit.Proofs.Configuring
import MediaSplit.Proofs.Css.Recutting
import MediaSplit.Proofs.Css.RuleLists
import MediaSplit.Proofs.Restripping
import MediaSplit.Proofs.RoundTrip
import MediaSplit.Proofs.Options.Names
import MediaSplit.Proofs.Options.Layers
import MediaSplit.Proofs.Options.Precedence
import MediaSplit.Proofs.Options.Resolution
import MediaSplit.Proofs.Options.Rereading
import MediaSplit.Proofs.Widths
import MediaSplit.Proofs.Files.Growing
import MediaSplit.Proofs.Files.Leading
import MediaSplit.Proofs.Files.Inside
import MediaSplit.Proofs.Files.Matching
import MediaSplit.Proofs.Options.Reselecting
import MediaSplit.Proofs.Splitter.Succeeding
import MediaSplit.Proofs.Splitter.Rerunning
import MediaSplit.Proofs.Options.Layering
import MediaSplit.Proofs.Files.Reaching
import MediaSplit.Proofs.Files.Repeats
import MediaSplit.Proofs.Delivering
import MediaSplit.Proofs.Unfinished
import MediaSplit.Proofs.Cache.Clearing
import MediaSplit.Proofs.Marked
import MediaSplit.Proofs.Shapes
import MediaSplit.Proofs.Files.Naming
import MediaSplit.Proofs.Stretches
