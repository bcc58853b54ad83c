import Synapse.Raft.Voter
import Synapse.Raft.Election
import Synapse.Raft.Safety
import Synapse.Storage.Concurrent
import Synapse.Native.Reflection
import Synapse.Workflow.Creation
import Synapse.Workflow.Lifecycle
import Synapse.Workflow.Responders
import Synapse.Workflow.Routing
import Synapse.Workflow.Tokens
import Synapse.Mqtt.RoundTrip
import Synapse.Resp.PubSub
import Synapse.Resp.Replies
import Synapse.Resp.Server
import Synapse.Amqp.Backlog
import Synapse.Amqp.Content
import Synapse.Amqp.Custody
import Synapse.Amqp.FieldTable
import Synapse.Mqtt.Shared
import Synapse.Mqtt.Overlap
import Synapse.Mqtt.Cleanup
import Synapse.Mqtt.Will
import Synapse.Native.Contents
import Synapse.Native.Exchange
import Synapse.ControlPlane.Fencing
import Synapse.Raft.CommitRule
import Synapse.Raft.InProcess
import Synapse.Raft.FollowerCommit
import Synapse.Raft.DriveLoop
import Synapse.Raft.Frames
import Synapse.Native.Inbound
import Synapse.Engine.Rebuild
import Synapse.Storage.Interleaved
import Synapse.Storage.Leftovers
import Synapse.Engine.Quota
import Synapse.Amqp.Storable
import Synapse.Resp.Lifetimes
import Synapse.Workflow.Order
import Synapse.Kafka.Topics
