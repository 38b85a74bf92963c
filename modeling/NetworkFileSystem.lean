import NetworkFileSystem.Posix.Persistence
import NetworkFileSystem.Service.Files
import NetworkFileSystem.Security.Ownership
import NetworkFileSystem.Security.Content
import NetworkFileSystem.Security.SharedRoot
import NetworkFileSystem.Client.Identity
import NetworkFileSystem.Client.Offsets
import NetworkFileSystem.Resources.Balance
import NetworkFileSystem.Resources.Locks
import NetworkFileSystem.Security.Capabilities
import NetworkFileSystem.Security.Authentication
import NetworkFileSystem.Replication.Duplicates
import NetworkFileSystem.Client.Errors
import NetworkFileSystem.Client.Failover
import NetworkFileSystem.Replication.Counterparts
import NetworkFileSystem.Replication.Contents
import NetworkFileSystem.Client.Listing
import NetworkFileSystem.Client.Connections
import NetworkFileSystem.Client.Interleaving
import NetworkFileSystem.Client.Attributes
import NetworkFileSystem.Concurrency.Deadlock
import NetworkFileSystem.Service.Paths
import NetworkFileSystem.Security.Naming
import NetworkFileSystem.Client.Links
import NetworkFileSystem.Client.Extents
import NetworkFileSystem.Concurrency.Serialisability
import NetworkFileSystem.Security.Confinement
import NetworkFileSystem.Security.Containment
import NetworkFileSystem.Wire.Clients
import NetworkFileSystem.Client.OneTree
import NetworkFileSystem.Store.Refinement
