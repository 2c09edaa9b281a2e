import FastapiTemplate.Proof.Lineage
import FastapiTemplate.Proof.Revocation
import FastapiTemplate.Proof.Sessions
import FastapiTemplate.Proof.Registration
import FastapiTemplate.Proof.AllOrNothing
import FastapiTemplate.Proof.Identity
import FastapiTemplate.Proof.Sharing
import FastapiTemplate.Proof.Isolation
import FastapiTemplate.Proof.Throttling
import FastapiTemplate.Proof.ThrottleKeys
import FastapiTemplate.Proof.TagRanks
import FastapiTemplate.Proof.StampedTags
import FastapiTemplate.Proof.WorkflowActions
import FastapiTemplate.Proof.SetupCompose
import FastapiTemplate.Proof.VersionScanners
import FastapiTemplate.Proof.SettledWorkflows
import FastapiTemplate.Proof.ActionRefs
import FastapiTemplate.Proof.ImageReferences
import FastapiTemplate.Proof.DefinitionFiles
import FastapiTemplate.Proof.LowerBounds
import FastapiTemplate.Proof.StableBounds
import FastapiTemplate.Proof.LockValidity
import FastapiTemplate.Proof.VersionOrder
import FastapiTemplate.Proof.Syncing
import FastapiTemplate.Proof.Pyproject
import FastapiTemplate.Proof.ContainerTree
import FastapiTemplate.Proof.AccessTokens
import FastapiTemplate.Proof.EmailDomains
import FastapiTemplate.Proof.Failures
import FastapiTemplate.Proof.Tokens
import FastapiTemplate.Proof.Resolution
import FastapiTemplate.Proof.ListedTags
import FastapiTemplate.Proof.NamedReleases
