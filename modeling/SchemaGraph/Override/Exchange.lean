import SchemaGraph.Override.Table

/-! The corrections for the schemas of Exchange Web Services that do not follow from the structure of
the schemas. -/
namespace SchemaGraph.OverrideTable.Exchange

def messages (localName : String) : String :=
  (QName.mk (some "http://schemas.microsoft.com/exchange/services/2006/messages") localName).clark

def types (localName : String) : String :=
  (QName.mk (some "http://schemas.microsoft.com/exchange/services/2006/types") localName).clark

def choiceGroups : List ((String × Option Nat) × Option String) :=
  [((messages "ArrayOfResponseMessagesType", none), some "Items"),
    ((messages "ArrayOfServiceConfigurationType", none), some ""),
    ((messages "FindConversationType", some 0), some "Paging"),
    ((messages "FindFolderType", some 0), some "Paging"),
    ((messages "FindItemType", some 0), some "Paging"),
    ((messages "FindItemType", some 1), some "Grouping"),
    ((messages "GetAppManifestsResponseType", some 0), some ""),
    ((messages "GetLastPrivateCatalogUpdateResponseType", some 0), some ""),
    ((messages "SubscribeType", some 0), some "SubscriptionRequest"),
    ((types "AggregateOnType", none), some "AggregationProperty"),
    ((types "AppendToFolderFieldType", some 0), some "Folder"),
    ((types "AppendToItemFieldType", some 0), some "Item"),
    ((types "ArrayOfArraysOfTrackingPropertiesType", none), some ""),
    ((types "ArrayOfAttachmentsType", none), some ""),
    ((types "ArrayOfAttendeeConflictData", none), some ""),
    ((types "ArrayOfBaseItemIdsType", none), some "ItemId"),
    ((types "ArrayOfCalendarItemsType", none), none),
    ((types "ArrayOfCalendarPermissionsType", none), none),
    ((types "ArrayOfConversationNodesType", none), none),
    ((types "ArrayOfConversationRequestsType", none), none),
    ((types "ArrayOfConversationsType", none), none),
    ((types "ArrayOfDistinguishedFolderIdType", none), none),
    ((types "ArrayOfEncryptedSharedFolderDataType", none), none),
    ((types "ArrayOfEventIDType", none), none),
    ((types "ArrayOfFindMessageTrackingSearchResultType", none), none),
    ((types "ArrayOfFolderIdType", none), none),
    ((types "ArrayOfFoldersType", none), some "Folder"),
    ((types "ArrayOfGroupIdType", none), none),
    ((types "ArrayOfGroupedItemsType", none), none),
    ((types "ArrayOfImGroupType", none), none),
    ((types "ArrayOfInvalidRecipientsType", none), none),
    ((types "ArrayOfItemClassType", none), none),
    ((types "ArrayOfItemsType", none), none),
    ((types "ArrayOfPeopleType", none), none),
    ((types "ArrayOfPermissionsType", none), none),
    ((types "ArrayOfPersonType", none), none),
    ((types "ArrayOfRecipientTrackingEventType", none), none),
    ((types "ArrayOfRecipientsType", none), none),
    ((types "ArrayOfRuleOperationsType", none), none),
    ((types "ArrayOfSmtpAddressType", none), none),
    ((types "ArrayOfTrackingPropertiesType", none), none),
    ((types "ArrayOfUnknownEntriesType", none), none),
    ((types "BaseObjectChangedEventType", some 0), none),
    ((types "ConfigurationRequestDetailsType", none), none),
    ((types "ConnectingSIDType", none), none),
    ((types "ExtendedPropertyType", some 0), none),
    ((types "FieldURIOrConstantType", none), some "Item"),
    ((types "FindItemParentType", none), none),
    ((types "FolderChangeType", some 0), some "FolderId"),
    ((types "GroupByType", some 0), some "GroupByProperty"),
    ((types "ItemAttachmentType", some 0), some "Item"),
    ((types "ItemChangeType", some 0), some "ItemId"),
    ((types "ModifiedEventType", some 0), none),
    ((types "MovedCopiedEventType", some 0), none),
    ((types "MovedCopiedEventType", some 1), none),
    ((types "NonEmptyArrayOfAlternateIdsType", none), none),
    ((types "NonEmptyArrayOfAttachmentsType", none), none),
    ((types "NonEmptyArrayOfBaseFolderIdsType", none), none),
    ((types "NonEmptyArrayOfBaseItemIdsType", none), none),
    ((types "NonEmptyArrayOfExtendedFieldURIs", none), none),
    ((types "NonEmptyArrayOfExtendedFieldURIsType", none), none),
    ((types "NonEmptyArrayOfExtendedPropertyType", none), none),
    ((types "NonEmptyArrayOfFolderChangeDescriptionsType", none), none),
    ((types "NonEmptyArrayOfFoldersType", none), none),
    ((types "NonEmptyArrayOfItemChangeDescriptionsType", none), none),
    ((types "NonEmptyArrayOfNotificationEventTypesType", none), none),
    ((types "NonEmptyArrayOfPathsToElementType", none), none),
    ((types "NonEmptyArrayOfPropertyValuesType", none), none),
    ((types "NonEmptyArrayOfRequestAttachmentIdsType", none), none),
    ((types "NonEmptyArrayOfResponseObjectsType", none), none),
    ((types "NonEmptyStateDefinitionType", none), none),
    ((types "NotificationType", some 0), some "Events"),
    ((types "ProtectionRuleConditionType", none), some ""),
    ((types "SearchFolderScopeType", none), some "BaseFolderId"),
    ((types "SetFolderFieldType", some 0), some "Folder"),
    ((types "SetItemFieldType", some 0), some "Item"),
    ((types "SingleRecipientType", none), none),
    ((types "SyncFolderHierarchyCreateOrUpdateType", none), some "Folder"),
    ((types "SyncFolderItemsCreateOrUpdateType", none), some "Item"),
    ((types "TargetFolderIdType", none), some "BaseFolderId"),
    ((types "UserConfigurationNameType", none), some "BaseFolderId")]

def typeNames : List (String × String) :=
  [(types "AbchEmailAddressDictionaryType", "AbchEmailAddressDictionaryType"),
    (types "AbchPersonItemType", "AbchPerson"),
    (types "AddressEntityType", "AddressEntityType"),
    (types "AggregateOnType", "AggregateOnType"),
    (types "ApprovalRequestDataType", "ApprovalRequestDataType"),
    (types "BodyType", "BodyContentType"),
    (types "ConstantValueType", "Constant"),
    (types "ContactItemType", "Contact"),
    (types "ContactUrlDictionaryType", "ContactUrlDictionaryType"),
    (types "ContainsExpressionType", "Contains"),
    (types "EmailAddressDictionaryEntryType", "EmailAddressDictionaryEntryType"),
    (types "ExtendedPropertyType", "ExtendedPropertyType"),
    (types "FieldOrderType", "SortResults"),
    (types "FieldURIOrConstantType", "FieldURIOrConstantType"),
    (types "ImAddressDictionaryEntryType", "ImAddressDictionaryEntryType"),
    (types "MeetingCancellationMessageType", "MeetingCancellationMessageType"),
    (types "MeetingRequestMessageType", "MeetingRequestMessageType"),
    (types "MeetingResponseMessageType", "MeetingResponseMessageType"),
    (types "MessageSafetyType", "MessageSafetyType"),
    (types "MimeContentType", "MimeContentType"),
    (types "NetworkItemType", "NetworkItemType"),
    (types "PathToExtendedFieldType", "ExtendedPropertyUri"),
    (types "PathToIndexedFieldType", "DictionaryPropertyUri"),
    (types "PathToUnindexedFieldType", "PropertyUri"),
    (types "PhoneNumberDictionaryEntryType", "PhoneNumberDictionaryEntryType"),
    (types "PhysicalAddressDictionaryType", "PhysicalAddressDictionaryType"),
    (types "ReminderMessageDataType", "ReminderMessageDataType"),
    (types "RequestAttachmentIdType", "AttachmentId"),
    (types "RestrictionType", "RestrictionType"),
    (types "RoleMemberItemType", "RoleMember"),
    (types "SingleRecipientType", "SingleRecipientType"),
    (types "TimeZoneDefinitionType", "TimeZoneDefinitionType"),
    (types "UserConfigurationNameType", "UserConfigurationNameType"),
    (types "VotingInformationType", "VotingInformationType")]

def listNames : List (String × String) :=
  [(messages "ArrayOfResponseMessagesType", "Items"),
    (types "SyncFolderItemsChangesType", "Changes"),
    (types "SyncFolderHierarchyChangesType", "Changes")]

def extraProperties : List (String × List String) :=
  [(messages "CreateAttachmentResponseType", ["SharingInformation"]),
    (messages "FindItemResponseMessageType", ["IsSearchInProgress", "SearchFolderId"]),
    (messages "SyncFolderItemsResponseMessageType",
      ["OldestReceivedTime", "MoreItemsOnServer", "TotalCount"]),
    (types "CalendarItemType", ["Charm"]),
    (types "CalendarFolderType", ["Charm"]),
    (types "EmailAddressType", ["EmailAddressIndex", "RelevanceScore", "SipUri", "Submitted"]),
    (types "MessageType",
      ["Apps", "IsGroupEscalationMessage", "MessageResponseType", "ParentMessageId",
        "ReceivedOrRenewTime", "RecipientCounts"]),
    (types "SyncFolderHierarchyCreateOrUpdateType", ["ChangeType"]),
    (types "SyncFolderItemsCreateOrUpdateType", ["ChangeType"]),
    (types "SyncFolderItemsDeleteType", ["ChangeType"]),
    (types "SyncFolderItemsReadFlagType", ["ChangeType"])]

def textAttributes : List (String × String) :=
  [(types "EmailAddressDictionaryEntryType", "EmailAddress"),
    (types "ImAddressDictionaryEntryType", "ImAddress"),
    (types "PhoneNumberDictionaryEntryType", "PhoneNumber")]

def searchExpressions : List String :=
  ["Contains", "And", "Or", "Near", "Not", "Exists", "IsEqualTo", "IsGreaterThan",
    "IsGreaterThanOrEqualTo", "IsLessThan", "IsLessThanOrEqualTo", "IsNotEqualTo"].map types

def fieldPaths : List String :=
  ["ExtendedFieldURI", "FieldURI", "IndexedFieldURI"].map types

def elementNames : List ElementNaming :=
  [⟨types "ArrayOfResolutionType", [types "Resolution"], "Resolutions"⟩,
    ⟨types "CalendarItemType", [types "LegacyFreeBusyStatus"], "FreeBusyType"⟩,
    ⟨types "CalendarItemType", [types "MyResponseType"], "ResponseType"⟩,
    ⟨types "RestrictionType", searchExpressions, "Item"⟩,
    ⟨types "AndType", searchExpressions, "Item"⟩,
    ⟨types "OrType", searchExpressions, "Item"⟩,
    ⟨types "NearType", searchExpressions, "Item"⟩,
    ⟨types "NotType", searchExpressions, "Item"⟩,
    ⟨types "ExistsType", fieldPaths, "Item"⟩,
    ⟨types "IsEqualToType", fieldPaths, "Item"⟩,
    ⟨types "IsGreaterThanType", fieldPaths, "Item"⟩,
    ⟨types "IsGreaterThanOrEqualToType", fieldPaths, "Item"⟩,
    ⟨types "IsLessThanType", fieldPaths, "Item"⟩,
    ⟨types "IsLessThanOrEqualToType", fieldPaths, "Item"⟩,
    ⟨types "IsNotEqualToType", fieldPaths, "Item"⟩,
    ⟨types "ContainsExpressionType", fieldPaths, "Item"⟩]

def elementHints : List (ElementCorrection String) :=
  [⟨types "SyncFolderItemsChangesType", types "Create", "SyncFolderItemsCreateType:#Exchange"⟩,
    ⟨types "SyncFolderItemsChangesType", types "Update", "SyncFolderItemsUpdateType:#Exchange"⟩]

def firstPage : Json :=
  .object [("__type", .string "IndexedPageView:#Exchange"), ("MaxEntriesReturned", .int 2147483647),
    ("Offset", .int 0), ("BasePoint", .string "Beginning")]

end SchemaGraph.OverrideTable.Exchange

namespace SchemaGraph

def OverrideTable.exchange : OverrideTable where
  version := "exchange-2010"
  choiceGroups := .ofList Exchange.choiceGroups
  typeNames := .ofList Exchange.typeNames
  listNames := .ofList Exchange.listNames
  extraProperties := .ofList Exchange.extraProperties
  textAttributes := .ofList Exchange.textAttributes
  simpleKinds := .ofList
    [(Exchange.types "DayOfWeekType", .enum),
      (Exchange.types "DaysOfWeekType", .list (Exchange.types "DayOfWeekType"))]
  elementNames := Exchange.elementNames
  elementHints := Exchange.elementHints
  elementDefaults :=
    [⟨Exchange.messages "FindFolderType", Exchange.messages "IndexedPageFolderView",
      Exchange.firstPage⟩]
  operationAliases := .ofList [("GetUserAvailabilityRequest", "GetUserAvailability")]

end SchemaGraph
