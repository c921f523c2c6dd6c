import ClusterMetadata.Address
import ClusterMetadata.Address.Text
import ClusterMetadata.Audit.Kind
import ClusterMetadata.Audit.Log
import ClusterMetadata.Audit.Registry
import ClusterMetadata.Audit.Rows
import ClusterMetadata.Audit.Tag
import ClusterMetadata.Catalog
import ClusterMetadata.Cell
import ClusterMetadata.Clock
import ClusterMetadata.Cluster
import ClusterMetadata.Digest.Sha256
import ClusterMetadata.Document
import ClusterMetadata.Document.Audit
import ClusterMetadata.Document.Bytes
import ClusterMetadata.Document.Canonical
import ClusterMetadata.Document.Change
import ClusterMetadata.Document.Config
import ClusterMetadata.Document.Definition
import ClusterMetadata.Document.Event
import ClusterMetadata.Document.Failure
import ClusterMetadata.Document.Message
import ClusterMetadata.Document.Mutation
import ClusterMetadata.Document.Network
import ClusterMetadata.Document.Yaml
import ClusterMetadata.Network.Message
import ClusterMetadata.Network.Messenger
import ClusterMetadata.Network.Ring
import ClusterMetadata.Network.State
import ClusterMetadata.Node.Announce
import ClusterMetadata.Node.Audit
import ClusterMetadata.Node.Config
import ClusterMetadata.Node.Dispatch
import ClusterMetadata.Node.Failure
import ClusterMetadata.Node.Handler
import ClusterMetadata.Node.Merge
import ClusterMetadata.Node.Metrics
import ClusterMetadata.Node.Pull
import ClusterMetadata.Node.Push
import ClusterMetadata.Node.Stage
import ClusterMetadata.Node.Start
import ClusterMetadata.Node.State
import ClusterMetadata.Node.Timer
import ClusterMetadata.Proofs.Audit.Addition
import ClusterMetadata.Proofs.Audit.Entries
import ClusterMetadata.Proofs.Audit.Hydration
import ClusterMetadata.Proofs.Audit.Lifecycle
import ClusterMetadata.Proofs.Audit.Log
import ClusterMetadata.Proofs.Audit.Registry
import ClusterMetadata.Proofs.Audit.Rows
import ClusterMetadata.Proofs.Except
import ClusterMetadata.Proofs.Network.Placement
import ClusterMetadata.Proofs.Network.Replicas
import ClusterMetadata.Proofs.Node.Acknowledgement
import ClusterMetadata.Proofs.Node.Advertised
import ClusterMetadata.Proofs.Node.Announced
import ClusterMetadata.Proofs.Node.Aside
import ClusterMetadata.Proofs.Node.Broadcast
import ClusterMetadata.Proofs.Node.Companions
import ClusterMetadata.Proofs.Node.Conduct
import ClusterMetadata.Proofs.Node.Delivery
import ClusterMetadata.Proofs.Node.Drop
import ClusterMetadata.Proofs.Node.Dropping
import ClusterMetadata.Proofs.Node.Fanout
import ClusterMetadata.Proofs.Node.Forgetting
import ClusterMetadata.Proofs.Node.Frame
import ClusterMetadata.Proofs.Node.Gate
import ClusterMetadata.Proofs.Node.Lifecycle
import ClusterMetadata.Proofs.Node.Lineage
import ClusterMetadata.Proofs.Node.Presence
import ClusterMetadata.Proofs.Node.Publication
import ClusterMetadata.Proofs.Node.Pulls
import ClusterMetadata.Proofs.Node.Push
import ClusterMetadata.Proofs.Node.Reasons
import ClusterMetadata.Proofs.Node.Refusal
import ClusterMetadata.Proofs.Node.Registration
import ClusterMetadata.Proofs.Node.Relay
import ClusterMetadata.Proofs.Node.Report
import ClusterMetadata.Proofs.Node.Resolution
import ClusterMetadata.Proofs.Node.Routing
import ClusterMetadata.Proofs.Node.Sending
import ClusterMetadata.Proofs.Node.Settlement
import ClusterMetadata.Proofs.Node.Sorting
import ClusterMetadata.Proofs.Node.Stage
import ClusterMetadata.Proofs.Node.Staleness
import ClusterMetadata.Proofs.Node.Steady
import ClusterMetadata.Proofs.Node.Tally
import ClusterMetadata.Proofs.Node.Trail
import ClusterMetadata.Proofs.Node.Update
import ClusterMetadata.Proofs.Node.Views
import ClusterMetadata.Proofs.Node.Work
import ClusterMetadata.Proofs.Schema.Announcement
import ClusterMetadata.Proofs.Schema.Change
import ClusterMetadata.Proofs.Schema.Coherence
import ClusterMetadata.Proofs.Schema.Concurrent
import ClusterMetadata.Proofs.Schema.Content
import ClusterMetadata.Proofs.Schema.Convergence
import ClusterMetadata.Proofs.Schema.Definition
import ClusterMetadata.Proofs.Schema.Exchange
import ClusterMetadata.Proofs.Schema.Fingerprint
import ClusterMetadata.Proofs.Schema.Image
import ClusterMetadata.Proofs.Schema.Lineage
import ClusterMetadata.Proofs.Schema.Loading
import ClusterMetadata.Proofs.Schema.Naming
import ClusterMetadata.Proofs.Schema.Pull
import ClusterMetadata.Proofs.Schema.Reading
import ClusterMetadata.Proofs.Schema.Rebuild
import ClusterMetadata.Proofs.Schema.Refinement
import ClusterMetadata.Proofs.Schema.Rejection
import ClusterMetadata.Proofs.Schema.Replay
import ClusterMetadata.Proofs.Schema.Replica
import ClusterMetadata.Proofs.Schema.Rows
import ClusterMetadata.Proofs.Schema.Sizes
import ClusterMetadata.Proofs.Schema.Statement
import ClusterMetadata.Proofs.Schema.Storable
import ClusterMetadata.Proofs.Schema.Stored
import ClusterMetadata.Proofs.SortedMap
import ClusterMetadata.Proofs.Storage.Calls
import ClusterMetadata.Proofs.Storage.Live
import ClusterMetadata.Proofs.Storage.Merging
import ClusterMetadata.Proofs.Storage.Tombstones
import ClusterMetadata.Proofs.Storage.Writes
import ClusterMetadata.Proofs.Text.Delimits
import ClusterMetadata.Proofs.Text.OptionMap
import ClusterMetadata.Proofs.Uuid
import ClusterMetadata.Proofs.Wire.CellName
import ClusterMetadata.Proofs.Wire.ForwardList
import ClusterMetadata.Proofs.Wire.Limits
import ClusterMetadata.Proofs.Wire.Mutation
import ClusterMetadata.Proofs.Wire.Payload
import ClusterMetadata.Proofs.Wire.Reader
import ClusterMetadata.Proofs.Wire.Versions
import ClusterMetadata.Schema.Definition
import ClusterMetadata.Schema.Event
import ClusterMetadata.Schema.Observer
import ClusterMetadata.Schema.Rows
import ClusterMetadata.Schema.Store
import ClusterMetadata.Schema.Stored
import ClusterMetadata.Schema.Version
import ClusterMetadata.SortedMap
import ClusterMetadata.Storage
import ClusterMetadata.Text.BigEndian
import ClusterMetadata.Text.Digits
import ClusterMetadata.Text.Hex
import ClusterMetadata.Text.OptionMap
import ClusterMetadata.Text.Utf8
import ClusterMetadata.Uuid
import ClusterMetadata.Wire.CellName
import ClusterMetadata.Wire.ForwardList
import ClusterMetadata.Wire.Mutation
import ClusterMetadata.Wire.Protocol
import ClusterMetadata.Wire.Reader
import ClusterMetadata.Yaml.Cursor
import ClusterMetadata.Yaml.Layout
import ClusterMetadata.Yaml.Node
import ClusterMetadata.Yaml.Reading
import ClusterMetadata.Yaml.Scalar
import ClusterMetadata.Yaml.Token
